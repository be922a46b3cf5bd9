import Mftdma.Mpeg.Charge
import Mftdma.Mpeg.Entries

/-!
# Payload unit starts

`pusi_` says that a packet begins in a cell, and the cell has one byte less for it.
`send_frags` sets it in the cells that it opens for a packet. It does not look at it
when a packet is put into a cell that is open already, so a packet that begins behind
the end of another one, in the last cell of that, begins in a cell without the mark.
It does not look at the number of entries either, and what a cell says of its fragments
is lost when they do not go into the arrays.

`Marks` is what never changes about a cell, its payload and `pusi_`; `begun` are the
payloads that the first fragments of the packets have been put into.
-/

namespace Mftdma.Mpeg

open Execution

namespace MpegLL

/-- There is a cell with the payload `i` and this `pusi_`. -/
def Marks (s : MpegLL) (i : ℕ) (pusi : Bool) : Prop :=
  ∃ c, s.Carries c ∧ c.payload = i ∧ c.pusi = pusi

/-- The payload that an event puts the first fragment of a packet into. -/
def begins (id : ℕ) (s : MpegLL) : Event → List ℕ
  | .send p => (getQueue s.txAddrs p.nextHop).toList.map fun q =>
      (Packing.start id s p.encapsulate q).ll.payload
  | _ => []

/-- The payloads that packets begin in, over a run. -/
def begun (id : ℕ) : MpegLL → List Event → List ℕ := outputs (step id) (begins id)

/-- A cell has `pusi_` exactly when a packet begins in it, and its fragments are in the
arrays and leave room for the byte that goes with it. -/
def PusiLaw (begun : List ℕ) (s : MpegLL) (c : Cell) : Prop :=
  (c.pusi = true ↔ c.payload ∈ begun) ∧ (s.heap c.payload).length ≤ maxFrags ∧
    bytes (s.heap c.payload) + c.pointer ≤ 184

instance (begun : List ℕ) (s : MpegLL) (c : Cell) : Decidable (PusiLaw begun s c) :=
  inferInstanceAs (Decidable (_ ∧ _ ∧ _))

/-- A packet comes when no cell is open for its next hop, or one that has `pusi_` and
fewer than `MAX_FRAGS` entries. -/
def BeginsMarked (s : MpegLL) : Event → Prop
  | .send p => ∀ q ∈ getQueue s.txAddrs p.nextHop, ∀ c ∈ s.txBuffer q,
      c.pusi = true ∧ (s.heap c.payload).length < maxFrags
  | _ => True

instance (s : MpegLL) : ∀ e, Decidable (s.BeginsMarked e)
  | .send p => inferInstanceAs
      (Decidable (∀ q ∈ getQueue s.txAddrs p.nextHop, ∀ c ∈ s.txBuffer q,
        c.pusi = true ∧ (s.heap c.payload).length < maxFrags))
  | .timer _ => isTrue trivial
  | .receive _ _ => isTrue trivial

end MpegLL

namespace Packing

open MpegLL

variable {a b : Packing} {s : MpegLL} {q : Slot} {c : Cell} {p : Packet} {id i : ℕ} {v : Bool}

theorem marks_store : (s.store q (some c)).Marks i v ↔
    c.payload = i ∧ c.pusi = v ∨ ∃ d, s.Others q d ∧ d.payload = i ∧ d.pusi = v := by
  simp only [Marks, carries_store, or_and_right, exists_or, exists_eq_left]

theorem marks_of_some (held : s.txBuffer q = some c) : s.Marks i v ↔
    c.payload = i ∧ c.pusi = v ∨ ∃ d, s.Others q d ∧ d.payload = i ∧ d.pusi = v := by
  simp only [Marks, carries_iff held, or_and_right, exists_or, exists_eq_left]

theorem marks_retire (held : s.txBuffer q = some c) :
    ((s.sendDown c).store q none).Marks i v ↔ s.Marks i v := by
  simp only [Marks, carries_retire, carries_iff held]

theorem marks_start_of_some (held : s.txBuffer q = some c) :
    ((start id s p q).hold q).Marks i v ↔ s.Marks i v := by
  rw [start_of_some held, hold, marks_store, marks_of_some held]

theorem marks_start_of_none (empty : s.txBuffer q = none) :
    ((start id s p q).hold q).Marks i v ↔ s.fresh = i ∧ true = v ∨ s.Marks i v := by
  have others : ∀ d, s.Carries d ↔ (s.newDvb id q).2.Others q d :=
    fun d => carries_iff_of_none empty
  rw [start_of_none empty, hold, marks_store]
  simp only [Marks, others]

theorem marks_pass : (((fill id p q).body a).hold q).Marks i v ↔
    a.ll.fresh = i ∧ false = v ∨ (a.hold q).Marks i v := by
  have others : ∀ d, ((fill id p q).body a).ll.Others q d ↔ d = a.cell ∨ a.ll.Others q d :=
    fun d => others_sendDown (s := a.ll.insertFrag p a.cell.dvbSpace)
  rw [hold, marks_store, hold, marks_store]
  simp only [others, or_and_right, exists_or, exists_eq_left]
  exact Iff.rfl

theorem marks_finish : (a.finish p q).Marks i v ↔ (a.hold q).Marks i v := by
  rw [finish]
  split_ifs with full
  · simp only [Marks, hold, carries_retire, carries_store, or_and_right, exists_or, exists_eq_left]
    exact Iff.rfl
  · rw [marks_store, hold, marks_store]
    exact Iff.rfl

/-- What packing from `a` on has done: the marks stay, and a new cell has no `pusi_`. -/
structure Opens (q : Slot) (a b : Packing) : Prop where
  keep : ∀ i v, (a.hold q).Marks i v → (b.hold q).Marks i v
  new : ∀ i v, (b.hold q).Marks i v → (a.hold q).Marks i v ∨ a.ll.fresh ≤ i ∧ v = false
  fresh : a.ll.fresh ≤ b.ll.fresh

theorem opens_fill (h : (fill id p q).Visits a b) : Opens q a b := by
  apply h.invariant ⟨fun _ _ mark => mark, fun _ _ mark => .inl mark, le_rfl⟩
  intro b _ opens guard
  refine ⟨fun i v mark => marks_pass.mpr (.inr (opens.keep i v mark)), fun i v mark => ?_,
    opens.fresh.trans (Nat.le_succ _)⟩
  obtain ⟨rfl, rfl⟩ | old := marks_pass.mp mark
  · exact .inr ⟨opens.fresh, rfl⟩
  · exact opens.new i v old

end Packing

namespace MpegLL

variable {s t : MpegLL} {q : Slot} {p : Packet} {id d i : ℕ} {v : Bool} {e : Event}
  {es : List Event} {B : List ℕ}

/-- The cells with `pusi_` are those that packets have begun in. -/
structure Marked (B : List ℕ) (s : MpegLL) : Prop where
  iff : ∀ i v, s.Marks i v → (v = true ↔ i ∈ B)
  made : ∀ i ∈ B, i < s.fresh

theorem Single.begins_send (h : Single id d s) (comes : Comes d s (.send p)) :
    s.begins id (.send p) = [(Packing.start id s p.encapsulate (home d)).ll.payload] := by
  have hop : p.nextHop = d := comes
  rw [begins, hop, h.getQueue]
  rfl

/-- The marks of cells stay for good. -/
theorem Single.keeps_marks (h : Single id d s) (comes : Comes d s e)
    (stepped : Mpeg.step id s e = some t) (mark : s.Marks i v) : t.Marks i v := by
  cases e with
  | send p =>
      obtain ⟨a, visited, -, rfl⟩ := h.exists_send comes stepped
      apply Packing.marks_finish.mpr
      apply (Packing.opens_fill visited).keep
      cases held : s.txBuffer (home d) with
      | some c => exact (Packing.marks_start_of_some held).mpr mark
      | none => exact (Packing.marks_start_of_none held).mpr (.inr mark)
  | timer q =>
      obtain ⟨c, held, -, rfl⟩ := h.timer_eq_some stepped
      exact (Packing.marks_retire held).mpr mark
  | receive pid frags => exact absurd comes not_false

theorem Single.beginsMarked_iff (h : Single id d s) (comes : Comes d s (.send p)) :
    s.BeginsMarked (.send p) ↔ ∀ c, s.txBuffer (home d) = some c →
      c.pusi = true ∧ (s.heap c.payload).length < maxFrags := by
  have hop : p.nextHop = d := comes
  rw [BeginsMarked, hop, h.getQueue]
  simp only [Option.mem_def, Option.some.injEq, forall_eq']

/-- The open cell of the only hop is that of the current payload. -/
theorem Single.findsEntry (h : Single id d s) (comes : Comes d s e)
    (allowed : s.BeginsMarked e) : s.FindsEntry e := by
  cases e with
  | send p =>
      have hop : p.nextHop = d := comes
      rintro ⟨q, looked, c, held⟩
      rw [hop] at looked
      obtain rfl := Option.some.inj (looked.symm.trans h.getQueue)
      rw [← (h.own c held).2]
      exact ((h.beginsMarked_iff comes).mp allowed c held).2
  | timer q => trivial
  | receive pid frags => trivial

/-- The packet begins in a cell with `pusi_`, and no other cell gets it. -/
theorem Marked.send (marked : Marked B s) (h : Single id d s) (comes : Comes d s (.send p))
    (allowed : s.BeginsMarked (.send p)) (sent : s.sendFrags id p = some t) :
    Marked (B ++ s.begins id (.send p)) t := by
  have allowed := (h.beginsMarked_iff comes).mp allowed
  obtain ⟨a, visited, -, rfl⟩ := h.exists_send comes sent
  have opens := Packing.opens_fill visited
  have placed : ((Packing.start id s p.encapsulate (home d)).hold (home d)).Placed :=
    Packing.placed_start h.placed
  have started : Marked (B ++ [(Packing.start id s p.encapsulate (home d)).ll.payload])
      ((Packing.start id s p.encapsulate (home d)).hold (home d)) := by
    refine ⟨fun i v mark => ?_, fun i hi => ?_⟩
    · rw [List.mem_append, List.mem_singleton]
      cases held : s.txBuffer (home d) with
      | some c =>
          have old := (Packing.marks_start_of_some held).mp mark
          have first : s.payload ∈ B := by
            rw [← (h.own c held).2]
            exact (marked.iff _ _ ⟨c, carries_of_txBuffer held, rfl, rfl⟩).mp (allowed c held).1
          rw [Packing.start_of_some held, marked.iff i v old]
          refine ⟨.inl, ?_⟩
          rintro (old | rfl)
          · exact old
          · exact first
      | none =>
          rw [Packing.start_of_none held]
          obtain ⟨rfl, rfl⟩ | old := (Packing.marks_start_of_none held).mp mark
          · exact iff_of_true rfl (.inr rfl)
          · rw [marked.iff i v old]
            obtain ⟨c, carried, rfl, -⟩ := old
            exact (or_iff_left (h.placed.made c carried).ne).symm
    · obtain old | new := List.mem_append.mp hi
      · exact (marked.made i old).trans_le Packing.fresh_le_start
      · rw [List.mem_singleton.mp new]
        exact placed.current
  rw [h.begins_send comes]
  refine ⟨fun i v mark => ?_, fun i hi => ?_⟩
  · obtain old | ⟨new, rfl⟩ := opens.new i v (Packing.marks_finish.mp mark)
    · exact started.iff i v old
    · refine iff_of_false (by decide) fun listed => ?_
      exact Nat.lt_irrefl _ ((started.made i listed).trans_le new)
  · have fresh : (a.finish p.encapsulate (home d)).fresh = a.ll.fresh := by
      rw [Packing.finish]
      split_ifs <;> rfl
    rw [fresh]
    exact (started.made i hi).trans_le opens.fresh

theorem Marked.step (marked : Marked B s) (h : Single id d s) (comes : Comes d s e)
    (allowed : s.BeginsMarked e) (stepped : Mpeg.step id s e = some t) :
    Marked (B ++ s.begins id e) t := by
  cases e with
  | send p => exact marked.send h comes allowed stepped
  | timer q =>
      obtain ⟨c, held, rfl⟩ := timer_eq_some h.placed stepped
      have none : B ++ s.begins id (.timer q) = B := List.append_nil B
      rw [none]
      exact ⟨fun i v mark => marked.iff i v ((Packing.marks_retire held).mp mark), marked.made⟩
  | receive pid frags => exact absurd comes not_false

end MpegLL

namespace MpegLL

variable {s t : MpegLL} {q : Slot} {c : Cell} {p : Packet} {id d i : ℕ} {v : Bool} {e : Event}
  {es : List Event} {B : List ℕ}

theorem marked_init : Marked [] init where
  iff i v mark := by
    obtain ⟨c, ⟨l, held⟩ | gone, -⟩ := mark
    · cases held
    · cases gone
  made _ mem := absurd mem List.not_mem_nil

/-- A run in which packets only begin in new cells or behind the beginning of another. -/
theorem marked_run (comes : Along (Mpeg.step id) (Comes d) init es)
    (allowed : Along (Mpeg.step id) BeginsMarked init es)
    (reach : run (Mpeg.step id) init es = some t) : Marked (begun id init es) t ∧ t.Inside := by
  have start : Single id d init ∧ Marked [] init ∧ init.Inside :=
    ⟨single_init, marked_init, inside_init⟩
  apply (run_outputs_along [] (I := fun B s => Single id d s ∧ Marked B s ∧ s.Inside) start
    (comes.and allowed) _ reach).2
  rintro B a e b ⟨single, marked, inside⟩ ⟨comes, allowed⟩ stepped
  exact ⟨(single.step comes stepped).1, marked.step single comes allowed stepped,
    inside.step (single.findsEntry comes allowed) stepped⟩

/-- What a packet does to a cell that it should not begin in: one without `pusi_`, or one
that gets an entry too many. -/
theorem Single.spoils (h : Single id d s) (comes : Comes d s (.send p))
    (stepped : Mpeg.step id s (.send p) = some t) (wrong : ¬ s.BeginsMarked (.send p)) :
    ∃ v, t.Marks s.payload v ∧ s.payload ∈ s.begins id (.send p) ∧
      (v = true → maxFrags < (t.heap s.payload).length) := by
  rw [h.beginsMarked_iff comes] at wrong
  push Not at wrong
  obtain ⟨c, held, full⟩ := wrong
  have own : c.payload = s.payload := (h.own c held).2
  refine ⟨c.pusi, h.keeps_marks comes stepped ⟨c, carries_of_txBuffer held, own, rfl⟩, ?_,
    fun marked => ?_⟩
  · rw [h.begins_send comes, Packing.start_of_some held]
    exact List.mem_singleton_self _
  · obtain ⟨q, a, looked, filled, rfl⟩ := sendFrags_eq_some.mp stepped
    have hop : p.nextHop = d := comes
    rw [hop] at looked
    obtain rfl := Option.some.inj (looked.symm.trans h.getQueue)
    have before := full marked
    rw [own] at before
    exact before.trans_lt (Packing.entries_of_open h.placed held filled)

/-- A packet that begins in the wrong cell leaves a cell behind that breaks the law. -/
theorem broken_run (comes : Along (Mpeg.step id) (Comes d) init es)
    (reach : run (Mpeg.step id) init es = some t)
    (broken : ¬ Along (Mpeg.step id) BeginsMarked init es) :
    ∃ i ∈ begun id init es, ∃ v, t.Marks i v ∧ (v = true → maxFrags < (t.heap i).length) := by
  rw [along_iff_forall_split] at broken
  push Not at broken
  obtain ⟨xs, e, ys, m, rfl, before, wrong⟩ := broken
  obtain ⟨earlier, later⟩ := along_append_iff.mp comes
  have along := later m before
  have here : Comes d m e := along.1
  have single : Single id d m := (single_run earlier before).1
  cases e with
  | send p =>
      obtain ⟨n, stepped, rest⟩ := run_cons_eq_some.mp (run_of_run_append before reach)
      obtain ⟨v, mark, listed, full⟩ := single.spoils here stepped wrong
      refine ⟨m.payload, ?_, v, ?_⟩
      · rw [begun, outputs_append, before]
        apply List.mem_append_right
        exact List.mem_append_left _ listed
      · have start : Single id d n ∧ n.Marks m.payload v ∧ m.payload < n.fresh ∧
            (v = true → maxFrags < (n.heap m.payload).length) :=
          ⟨(single.step here stepped).1, mark,
            single.placed.current.trans_le (length_le_of_step stepped single.placed.current).2, full⟩
        obtain ⟨-, mark, -, full⟩ := run_invariant_along (I := fun s => Single id d s ∧
          s.Marks m.payload v ∧ m.payload < s.fresh ∧
            (v = true → maxFrags < (s.heap m.payload).length)) start (along.2 n stepped) (by
          rintro a e b ⟨single, mark, made, full⟩ comes stepped
          obtain ⟨longer, newer⟩ := length_le_of_step stepped made
          exact ⟨(single.step comes stepped).1, single.keeps_marks comes stepped mark,
            made.trans_le newer, fun marked => (full marked).trans_le longer⟩) rest
        exact ⟨mark, full⟩
  | timer q => exact absurd trivial wrong
  | receive pid frags => exact absurd here not_false

end MpegLL

open MpegLL

/-- With one next hop, the cells sent obey the law as long as packets only begin in new
cells or in cells that have `pusi_` and an entry left. Once every cell has been sent, they
obey it in no other run. -/
theorem pusiLaw_iff {id d : ℕ} {es : List Event} {t : MpegLL}
    (comes : Along (step id) (Comes d) init es) (reach : run (step id) init es = some t) :
    (Along (step id) BeginsMarked init es → ∀ c ∈ t.sent, PusiLaw (begun id init es) t c) ∧
      (t.txBuffer (home d) = none →
        ((∀ c ∈ t.sent, PusiLaw (begun id init es) t c) ↔
          Along (step id) BeginsMarked init es)) := by
  obtain ⟨single, charged⟩ := single_run comes reach
  have lawful : Along (step id) BeginsMarked init es →
      ∀ c ∈ t.sent, PusiLaw (begun id init es) t c := by
    intro allowed c hc
    obtain ⟨marked, inside⟩ := marked_run comes allowed reach
    exact ⟨marked.iff _ _ ⟨c, .inr hc, rfl, rfl⟩, inside c.payload, charged.sent c hc⟩
  refine ⟨lawful, fun flushed => ⟨fun law => ?_, lawful⟩⟩
  by_contra broken
  obtain ⟨i, listed, v, ⟨c, carried, rfl, rfl⟩, full⟩ := broken_run comes reach broken
  have gone : c ∈ t.sent := by
    obtain ⟨l, held⟩ | gone := carried
    · by_cases here : l = home d
      · rw [here, flushed] at held
        cases held
      · rw [single.only l here] at held
        cases held
    · exact gone
  obtain ⟨begins, inside, -⟩ := law c gone
  exact Nat.not_lt_of_le inside (full (begins.mpr listed))

/-- Two packets in one cell, and one more in another. -/
def together : List Event :=
  [.send ⟨0, 1, 40⟩, .send ⟨1, 1, 40⟩, .timer 1, .send ⟨2, 1, 300⟩, .timer 1]

/-- The second packet begins in an open cell with `pusi_`; everything is flushed. -/
theorem pusiLaw_iff_together : ∃ t, run (step 7) init together = some t ∧
    ((∀ c ∈ t.sent, PusiLaw (begun 7 init together) t c) ↔
      Along (step 7) BeginsMarked init together) ∧
    ∀ c ∈ t.sent, PusiLaw (begun 7 init together) t c := by
  have returned : (run (step 7) init together).isSome = true := by decide +kernel
  have flushed : ∀ t ∈ run (step 7) init together, t.txBuffer (home 1) = none := by
    decide +kernel
  obtain ⟨t, reach⟩ := Option.isSome_iff_exists.mp returned
  have comes : Along (step 7) (Comes 1) init together := by decide +kernel
  have allowed : Along (step 7) BeginsMarked init together := by decide +kernel
  have law := (pusiLaw_iff comes reach).2 (flushed t reach)
  exact ⟨t, reach, law, law.mpr allowed⟩

/-- A packet that begins in the last cell of another one. -/
def behind : List Event := [.send ⟨0, 1, 200⟩, .send ⟨1, 1, 40⟩, .timer 1]

/-- Eleven packets of 8 bytes in one cell. -/
def crowded : List Event := (List.range 11).map (fun i => .send ⟨i, 1, 8⟩) ++ [.timer 1]

theorem behind_not_lawful :
    (Along (step 7) (Comes 1) init behind ∧ ∃ t, run (step 7) init behind = some t ∧
      ¬ ∀ c ∈ t.sent, PusiLaw (begun 7 init behind) t c) ∧
    Along (step 7) (Comes 1) init crowded ∧ ∃ t, run (step 7) init crowded = some t ∧
      ¬ ∀ c ∈ t.sent, PusiLaw (begun 7 init crowded) t c := by
  have comes : ∀ es ∈ [behind, crowded], Along (step 7) (Comes 1) init es := by decide +kernel
  have returned : ∀ es ∈ [behind, crowded], (run (step 7) init es).isSome = true := by
    decide +kernel
  have broken : ∀ es ∈ [behind, crowded], ∀ t ∈ run (step 7) init es,
      ¬ ∀ c ∈ t.sent, PusiLaw (begun 7 init es) t c := by
    decide +kernel
  obtain ⟨t, reach⟩ := Option.isSome_iff_exists.mp (returned behind List.mem_cons_self)
  obtain ⟨u, reach'⟩ :=
    Option.isSome_iff_exists.mp (returned crowded (List.mem_cons_of_mem _ List.mem_cons_self))
  simp only [List.forall_mem_cons] at comes broken
  exact ⟨⟨comes.1, t, reach, broken.1 t reach⟩, comes.2.1, u, reach', broken.2.1 u reach'⟩

end Mftdma.Mpeg
