import Mftdma.Mpeg.Charge
import Mftdma.Mpeg.Entries

/-!
# Where `insert_frag` writes

A payload goes with its cell, which `sendDown` frees when `qMon_` is too long, and the
layers below at some time after they have got it. `send_frags` does not ask whether the
payload that the member `payload` points to is still there, or has an entry left.
`Station` adds to `MpegLL` what has been freed, and `Act` that it is, at any time.

`insertsInside_iff` tells the runs in which all goes well by the packets that have come
since a cell was last opened. With one next hop, only short packets can bring more than
`MAX_FRAGS` of them together, and packets of twelve bytes are long enough.
-/

namespace Mftdma.Mpeg

open Execution MpegLL

/-- A station, and the payloads that have been freed together with their cells. -/
structure Station where
  ll : MpegLL
  freed : List ℕ

/-- What happens at a station, and below it: the cell with the payload `i` is freed. -/
inductive Act where
  | event (e : Event)
  | free (i : ℕ)

/-- Only cells handed to `sendDown` are freed, and it may do so itself. -/
def act (id : ℕ) (s : Station) : Act → Option Station
  | .event e => (step id s.ll e).map fun t => { s with ll := t }
  | .free i =>
      if i ∈ s.ll.sent.map Cell.payload then some { s with freed := i :: s.freed } else none

namespace Station

def init : Station where
  ll := MpegLL.init
  freed := []

/-- The payloads that may be gone when a call has come to `t`: those freed before, and
those of the cells that the call has handed down itself. -/
def gone (s : Station) (t : MpegLL) : List ℕ :=
  s.freed ++ (t.sent.drop s.ll.sent.length).map Cell.payload

/-- Every call of `insert_frag` in the step is on a payload that exists, and writes inside
its arrays. -/
def InsertsInside (id : ℕ) (s : Station) : Act → Prop
  | .event (.send p) => ∀ q ∈ getQueue s.ll.txAddrs p.nextHop, ∀ a,
      (Packing.fill id p.encapsulate q).Visits (Packing.start id s.ll p.encapsulate q) a →
        a.ll.payload ∉ s.gone a.ll ∧ a.EntryLeft
  | _ => True

/-- A packet that finds its cell open finds `payload` pointing to a payload that exists
and has an entry left. -/
def FindsEntry (s : Station) : Act → Prop
  | .event (.send p) => s.ll.FindsOpen p →
      s.ll.payload ∉ s.freed ∧ (s.ll.heap s.ll.payload).length < maxFrags
  | _ => True

instance (s : Station) : ∀ a, Decidable (s.FindsEntry a)
  | .event (.send p) => inferInstanceAs (Decidable (s.ll.FindsOpen p →
      s.ll.payload ∉ s.freed ∧ (s.ll.heap s.ll.payload).length < maxFrags))
  | .event (.timer _) => isTrue trivial
  | .event (.receive _ _) => isTrue trivial
  | .free _ => isTrue trivial

/-- Whether the packet that comes has a cell opened for it. -/
def openings (s : Station) : Act → List Bool
  | .event (.send p) => [decide (s.ll.Opens p)]
  | _ => []

end Station

/-- How many packets there are from the last one on that a cell was opened for. -/
def sinceOpened (opened : List Bool) : ℕ := (opened.reverse.takeWhile fun b => !b).length + 1

/-- Whenever a packet finds a cell open for its next hop, the payload made last has not
been freed, and fewer than `MAX_FRAGS` packets have come from the last one on that a cell
was opened for. -/
def Spread (id : ℕ) (es : List Act) : Prop :=
  ∀ xs p ys s, es = xs ++ .event (.send p) :: ys → run (act id) Station.init xs = some s →
    s.ll.FindsOpen p → s.ll.payload ∉ s.freed ∧
      sinceOpened (outputs (act id) Station.openings Station.init xs) < maxFrags

theorem sinceOpened_snoc (opened : List Bool) (P : Prop) [Decidable P] :
    sinceOpened (opened ++ [decide P]) = if P then 1 else sinceOpened opened + 1 := by
  by_cases h : P <;> simp [sinceOpened, h]

namespace Station

variable {s t : Station} {id d : ℕ} {p : Packet} {e : Event} {a : Act} {opened : List Bool}

/-- What was freed has been handed to `sendDown`. -/
structure Kept (s : Station) : Prop where
  placed : s.ll.Placed
  freed : ∀ i ∈ s.freed, ∃ c ∈ s.ll.sent, c.payload = i

theorem kept_init : init.Kept := ⟨placed_init, List.forall_mem_nil _⟩

theorem act_event_eq_some :
    act id s (.event e) = some t ↔ ∃ m, step id s.ll e = some m ∧ { s with ll := m } = t :=
  Option.map_eq_some_iff

theorem act_free_eq_some {i : ℕ} (acted : act id s (.free i) = some t) :
    (∃ c ∈ s.ll.sent, c.payload = i) ∧ t = { s with freed := i :: s.freed } := by
  rw [act] at acted
  split_ifs at acted with sent
  exact ⟨List.mem_map.mp sent, (Option.some.inj acted).symm⟩

theorem Kept.step (kept : s.Kept) (acted : act id s a = some t) : t.Kept := by
  cases a with
  | event e =>
      obtain ⟨m, stepped, rfl⟩ := act_event_eq_some.mp acted
      refine ⟨kept.placed.step stepped, fun i hi => ?_⟩
      obtain ⟨c, sent, rfl⟩ := kept.freed i hi
      exact ⟨c, mem_sent_of_step stepped sent, rfl⟩
  | free i =>
      obtain ⟨sent, rfl⟩ := act_free_eq_some acted
      exact ⟨kept.placed, List.forall_mem_cons.mpr ⟨sent, kept.freed⟩⟩

/-- The calls of `insert_frag` after the first are on payloads made for the open cell. -/
theorem Kept.not_gone_of_new (kept : s.Kept) {q : Slot} {b : Packing}
    (visited : (Packing.fill id p q).Visits (Packing.start id s.ll p q) b)
    (own : b.cell.payload = b.ll.payload) (new : s.ll.fresh ≤ b.ll.payload) :
    b.ll.payload ∉ s.gone b.ll := by
  have placed : (b.hold q).Placed := visited.invariant (I := fun b => (b.hold q).Placed)
    (Packing.placed_start kept.placed) fun _ _ placed _ => Packing.placed_pass placed
  intro listed
  obtain freed | sent := List.mem_append.mp listed
  · obtain ⟨c, sent, eq⟩ := kept.freed _ freed
    exact absurd (kept.placed.made c (.inr sent)) (Nat.not_lt_of_le (eq ▸ new))
  · obtain ⟨c, sent, eq⟩ := List.mem_map.mp sent
    apply placed.alone q b.cell (store_self b.ll q _) c (.inr (List.mem_of_mem_drop sent))
    rw [eq, own]

/-- Only the first call of `insert_frag` can go wrong, and only in a cell that was open. -/
theorem insertsInside_step_iff (kept : s.Kept) : s.InsertsInside id a ↔ s.FindsEntry a := by
  cases a with
  | event e =>
      cases e with
      | send p =>
          constructor
          · rintro inside ⟨q, looked, c, held⟩
            have first := inside q looked _ .entry
            rw [Packing.EntryLeft, gone, Packing.start_sent, List.drop_length, List.map_nil,
              List.append_nil, Packing.start_of_some held] at first
            exact first
          · intro found q looked b visited
            refine ⟨?_, Packing.entryLeft_of_first visited
              fun c held => (found ⟨q, looked, c, held⟩).2⟩
            obtain rfl | ⟨-, own, new⟩ := Packing.start_or_new visited
            · cases held : s.ll.txBuffer q with
              | some c =>
                  rw [gone, Packing.start_sent, List.drop_length, List.map_nil, List.append_nil,
                    Packing.start_of_some held]
                  exact (found ⟨q, looked, c, held⟩).1
              | none =>
                  have own : (Packing.start id s.ll p.encapsulate q).cell.payload =
                      (Packing.start id s.ll p.encapsulate q).ll.payload := by
                    rw [Packing.start_of_none held]
                    rfl
                  apply kept.not_gone_of_new visited own
                  rw [Packing.start_of_none held]
                  exact Nat.le_refl s.ll.fresh
            · exact kept.not_gone_of_new visited own (Packing.fresh_le_start.trans new)
      | timer q => exact Iff.rfl
      | receive pid frags => exact Iff.rfl
  | free i => exact Iff.rfl

/-- What is counted over a run: the entries of the current payload, while a cell is open. -/
structure Counted (opened : List Bool) (s : Station) : Prop where
  kept : s.Kept
  entries : ∀ q c, s.ll.txBuffer q = some c →
    (s.ll.heap s.ll.payload).length = sinceOpened opened

theorem counted_init : Counted [] init := ⟨kept_init, fun _ _ held => by cases held⟩

theorem Counted.step (counted : Counted opened s) (acted : act id s a = some t) :
    Counted (opened ++ s.openings a) t := by
  refine ⟨counted.kept.step acted, fun l c held => ?_⟩
  cases a with
  | event e =>
      obtain ⟨m, stepped, rfl⟩ := act_event_eq_some.mp acted
      cases e with
      | send p =>
          obtain ⟨q, a, looked, filled, rfl⟩ := sendFrags_eq_some.mp stepped
          have opens : s.ll.Opens p ↔
              ∀ c ∈ s.ll.txBuffer q, c.dvbSpace < p.encapsulate.size := by
            simp only [Opens, Option.mem_def, looked, Option.some.injEq, forall_eq']
          rw [Packing.finish_entries filled, openings, sinceOpened_snoc]
          simp only [opens]
          split_ifs with small
          · rfl
          · push Not at small
            obtain ⟨c, held, -⟩ := small
            rw [counted.entries q c held]
      | timer q =>
          obtain ⟨c, held', rfl⟩ := timer_eq_some counted.kept.placed stepped
          have same : opened ++ s.openings (.event (.timer q)) = opened := List.append_nil _
          rw [same]
          obtain ⟨-, none⟩ | ⟨-, old⟩ := store_some.mp held
          · cases none
          · exact counted.entries l _ old
      | receive pid frags =>
          obtain ⟨q, -, rfl⟩ := Option.map_eq_some_iff.mp stepped
          have same : opened ++ s.openings (.event (.receive pid frags)) = opened :=
            List.append_nil _
          rw [same]
          exact counted.entries l c held
  | free i =>
      obtain ⟨-, rfl⟩ := act_free_eq_some acted
      have same : opened ++ s.openings (.free i) = opened := List.append_nil _
      rw [same]
      exact counted.entries l c held

/-- The entries of the current payload are the packets since a cell was opened. -/
theorem counted_run {es : List Act} (reach : run (act id) init es = some t) :
    Counted (outputs (act id) openings init es) t :=
  run_outputs_along [] (I := Counted) counted_init
    (along_of_forall (P := fun _ _ => True) fun _ _ _ => trivial) 
    (fun _ _ _ _ counted _ acted => counted.step acted) reach

theorem findsEntry_iff (counted : Counted opened s) :
    s.FindsEntry (.event (.send p)) ↔
      (s.ll.FindsOpen p → s.ll.payload ∉ s.freed ∧ sinceOpened opened < maxFrags) := by
  apply forall_congr'
  rintro ⟨q, -, c, held⟩
  rw [counted.entries q c held]

end Station

open Station

/-- In every run, `insert_frag` is called on payloads that exist and writes inside their
arrays exactly when the packets are spread over the cells. -/
theorem insertsInside_iff (id : ℕ) (es : List Act) :
    Along (act id) (InsertsInside id) Station.init es ↔ Spread id es := by
  rw [along_iff_forall_split]
  constructor
  · intro inside xs p ys s split reach
    have counted := counted_run reach
    exact (findsEntry_iff counted).mp
      ((insertsInside_step_iff counted.kept).mp (inside xs _ ys s split reach))
  · intro spread xs a ys s split reach
    have counted := counted_run reach
    rw [insertsInside_step_iff counted.kept]
    cases a with
    | event e =>
        cases e with
        | send p => exact (findsEntry_iff counted).mpr (spread xs p ys s split reach)
        | timer q => trivial
        | receive pid frags => trivial
    | free i => trivial

/-- The tail of a packet and ten more, all of at least eleven bytes and for one hop. -/
def eleven : List Act :=
  .event (.send ⟨0, 1, 176⟩) :: (List.range 10).map fun i => .event (.send ⟨i + 1, 1, 11⟩)

/-- Packets of 40 bytes for six hops in turn. -/
def sixHops : List Act := (List.range 16).map fun i => .event (.send ⟨i, i % 6, 40⟩)

/-- The cell opened last is flushed and freed, and the cell of another hop is still open. -/
def freedEarly : List Act :=
  [.event (.send ⟨0, 1, 40⟩), .event (.send ⟨1, 2, 40⟩), .event (.timer 2), .free 2,
    .event (.send ⟨2, 1, 40⟩)]

theorem not_insertsInside : ¬ Along (act 7) (InsertsInside 7) Station.init eleven ∧
    ¬ Along (act 7) (InsertsInside 7) Station.init sixHops ∧
    ¬ Along (act 7) (InsertsInside 7) Station.init freedEarly := by
  have found : ∀ es, Along (act 7) (InsertsInside 7) Station.init es →
      Along (act 7) Station.FindsEntry Station.init es := by
    intro es inside
    rw [along_iff_forall_split] at inside ⊢
    intro xs a ys s split reach
    exact (insertsInside_step_iff (counted_run reach).kept).mp (inside xs a ys s split reach)
  have full : ¬ Along (act 7) Station.FindsEntry Station.init eleven ∧
      ¬ Along (act 7) Station.FindsEntry Station.init sixHops ∧
      ¬ Along (act 7) Station.FindsEntry Station.init freedEarly := by
    decide +kernel
  exact ⟨mt (found _) full.1, mt (found _) full.2.1, mt (found _) full.2.2⟩

/-- Of the entries of the current payload at most one has less than 20 bytes. -/
def Thick (s : MpegLL) : Prop := 20 * (s.heap s.payload).length ≤ bytes (s.heap s.payload) + 19

/-- A packet for the only hop that is not too short. -/
def LongComes (d : ℕ) (s : MpegLL) (e : Event) : Prop :=
  Comes d s e ∧ ∀ p ∈ e.packet, 12 ≤ p.size

/-- The same for a station whose cells are freed at any time. -/
def Station.LongComes (d : ℕ) (s : Station) : Act → Prop
  | .event e => Mpeg.LongComes d s.ll e
  | .free _ => True

section long

variable {s t : MpegLL} {p : Packet} {id d : ℕ} {e : Event} {es : List Event}

/-- A packet is put in whole, or what is left of it into an empty payload. -/
theorem Packing.thick_finish {a : Packing} (thick : Thick s) (long : 20 ≤ p.size)
    (pos : 0 < a.psize) (visited : (fill id p (home d)).Visits (start id s p (home d)) a) :
    Thick (a.finish p (home d)) := by
  have inserted : Thick (a.ll.insertFrag p a.psize) := by
    show 20 * ((a.ll.insertFrag p a.psize).heap a.ll.payload).length ≤
      bytes ((a.ll.insertFrag p a.psize).heap a.ll.payload) + 19
    rw [insertFrag_heap_self, List.length_append, List.length_singleton, bytes_snoc]
    obtain rfl | ⟨empty, -⟩ := start_or_new visited
    · rw [start_psize]
      cases held : s.txBuffer (home d) with
      | some c =>
          rw [start_of_some held]
          show 20 * ((s.heap s.payload).length + 1) ≤ bytes (s.heap s.payload) + p.size + 19
          rw [Thick] at thick
          omega
      | none =>
          rw [start_payload_empty held]
          show 20 * (0 + 1) ≤ 0 + p.size + 19
          omega
    · rw [empty]
      show 20 * (0 + 1) ≤ 0 + a.psize + 19
      omega
  rw [finish]
  split_ifs <;> exact inserted

theorem Thick.step (thick : Thick s) (h : Single id d s) (comes : LongComes d s e)
    (stepped : step id s e = some t) : Thick t := by
  obtain ⟨comes, long⟩ := comes
  cases e with
  | send p =>
      have size : 20 ≤ p.encapsulate.size := Nat.add_le_add_right (long p rfl) 8
      obtain ⟨a, visited, -, rfl⟩ := h.exists_send comes stepped
      obtain ⟨_, filling⟩ := h.filling_of_visits comes visited
      exact Packing.thick_finish thick size filling.pos visited
  | timer q =>
      obtain ⟨c, -, rfl⟩ := timer_eq_some h.placed stepped
      exact thick
  | receive pid frags => exact absurd comes not_false

/-- The open cell of the only hop has an entry left for a packet that is long enough. -/
theorem Thick.entryLeft {c : Cell} (thick : Thick s) (h : Single id d s)
    (charged : s.Charged (home d)) (held : s.txBuffer (home d) = some c) :
    (s.heap s.payload).length < maxFrags := by
  have room : 4 ≤ c.dvbSpace := h.placed.room _ c held
  have full := charged.room c held
  rw [(h.own c held).2] at full
  rw [Thick] at thick
  show (s.heap s.payload).length < 10
  omega

/-- What holds of a station with one next hop to which only long packets come. -/
structure Station.Solid (id d : ℕ) (s : Station) : Prop where
  kept : s.Kept
  single : Single id d s.ll
  charged : s.ll.Charged (home d)
  thick : Thick s.ll

theorem Station.Solid.step {s t : Station} {a : Act} (h : s.Solid id d) (comes : s.LongComes d a)
    (acted : act id s a = some t) : t.Solid id d := by
  have kept := h.kept.step acted
  cases a with
  | event e =>
      obtain ⟨m, stepped, rfl⟩ := act_event_eq_some.mp acted
      exact ⟨kept, (h.single.step comes.1 stepped).1, h.charged.step h.single comes.1 stepped,
        h.thick.step h.single comes stepped⟩
  | free i =>
      obtain ⟨-, rfl⟩ := act_free_eq_some acted
      exact ⟨kept, h.single, h.charged, h.thick⟩

/-- The payload of an open cell has not been freed, and it is the current one. -/
theorem Station.Solid.findsEntry {s : Station} {a : Act} (h : s.Solid id d)
    (comes : s.LongComes d a) : s.FindsEntry a := by
  cases a with
  | event e =>
      cases e with
      | send p =>
          have hop : p.nextHop = d := comes.1
          rintro ⟨q, looked, c, held⟩
          rw [hop] at looked
          obtain rfl := Option.some.inj (looked.symm.trans h.single.getQueue)
          refine ⟨fun freed => ?_, h.thick.entryLeft h.single h.charged held⟩
          obtain ⟨e, sent, same⟩ := h.kept.freed _ freed
          apply h.kept.placed.alone _ c held e (.inr sent)
          rw [same, (h.single.own c held).2]
      | timer q => trivial
      | receive pid frags => trivial
  | free i => trivial

/-- With one next hop and packets of at least twelve bytes, no array is left. -/
theorem insertsInside_of_long {es : List Act}
    (comes : Along (act id) (Station.LongComes d) Station.init es) :
    Along (act id) (InsertsInside id) Station.init es := by
  have start : Station.init.Solid id d :=
    ⟨kept_init, single_init, charged_init _, Nat.zero_le _⟩
  have solid := comes.invariant start fun _ _ _ h comes acted => h.step comes acted
  exact solid.mono fun s a h => (insertsInside_step_iff h.1.kept).mpr (h.1.findsEntry h.2)

end long

end Mftdma.Mpeg
