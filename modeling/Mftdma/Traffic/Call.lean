import Mathlib.Algebra.Order.Floor.Semiring
import Mftdma.Data.Double
import Mftdma.Traffic.Playout

/-!
# A voice call

A `Voice` that sends numbers its packets, `seqno`, in spurts of them: a packet every
`interval_`, and a pause after the last packet of a spurt. Between this `Talker` and the
`Listener` at the other end is a network that loses packets and delays them, but keeps them in
order.

What the listener takes for the number of packets sent is then the number of packets that the
talker did send from the first to the latest one received, whatever resets there are at both
ends, and its scores are those of these packets: `scored`. `paced` bounds what a talker sends in
a window of time, and `spurts` tells the schedule of one whose spurts all have one length.

What starts and stops a talker is a `TrafficGenerator`, which is a parameter. Times are sums of
`double`.
-/

namespace Mftdma.Traffic

open Execution Machine Voice Listener

/-- The variables bound to a talker; `deterministic_` is `det`. -/
structure Speech where
  ontime : ℚ
  idletime : ℚ
  interval : ℚ
  det : Bool
  ontime_nonneg : 0 ≤ ontime
  idletime_nonneg : 0 ≤ idletime
  interval_pos : 0 < interval

/-- What `burstlen_` and `idletime_` give when they are asked for a value. -/
structure Draw where
  burst : ℚ
  idle : ℚ
  burst_nonneg : 0 ≤ burst
  idle_nonneg : 0 ≤ idle

/-- `struct hdr_voice` -/
structure HdrVoice where
  txTime : ℚ
  seqno : ℤ

/-- What a `Voice` keeps to send. `running` and `timer` are those of `TrafficGenerator`; the
timer has the time when it expires. -/
structure Talker where
  rem : ℕ
  seqno : ℤ
  sent : ℤ
  running : Bool
  timer : Option ℚ

namespace Talker

/-- The part of `Voice::next_interval` that begins a spurt: its length and the pause before it. -/
def spurt (sp : Speech) (d : Draw) : ℕ × ℚ :=
  if sp.det then (⌊double (sp.ontime / sp.interval)⌋₊ + 1, sp.idletime)
  else (⌊d.burst⌋₊ + 1, d.idle)

/-- `Voice::next_interval`: the time to the next packet, and what it leaves in `rem_`. -/
def nextInterval (sp : Speech) (d : Draw) (rem : ℕ) : ℕ × ℚ :=
  if rem = 0 then ((spurt sp d).1 - 1, double (sp.interval + (spurt sp d).2))
  else (rem - 1, sp.interval)

/-- `Voice::init`; what `reset` clears for the other direction is that of `Voice.reset`. -/
def init (t : Talker) : Talker := { t with rem := 0, sent := 0 }

/-- `Voice::timeout` at the time `now`, with the packet that it sends. -/
def timeout (sp : Speech) (d : Draw) (now : ℚ) (t : Talker) : Talker × List HdrVoice :=
  if t.running then
    let next := nextInterval sp d t.rem
    ({ t with
        sent := t.sent + 1
        seqno := t.seqno + 1
        rem := next.1
        timer := if 0 < next.2 then some (double (now + next.2)) else none }, [⟨now, t.seqno⟩])
  else ({ t with timer := none }, [])

end Talker

/-- `TrafficGenerator::start`, at a time and with what the variables give for the first spurt,
and `TrafficGenerator::stop`. -/
structure TrafficGenerator where
  start : Speech → Draw → ℚ → Talker → Talker
  stop : Talker → Talker

namespace TrafficGenerator

/-- It leaves the numbers of the packets to the talker. -/
structure Keeps (g : TrafficGenerator) : Prop where
  start : ∀ sp d now t, (g.start sp d now t).seqno = t.seqno
  stop : ∀ t, (g.stop t).seqno = t.seqno

/-- A start calls `Voice::init`, and the first packet is due after the time that
`next_interval` then gives. A stop sets no timer. -/
structure Schedules (g : TrafficGenerator) : Prop where
  running : ∀ sp d now t, (g.start sp d now t).running = true
  rem : ∀ sp d now t, (g.start sp d now t).rem = (Talker.nextInterval sp d t.init.rem).1
  timer : ∀ sp d now t, (g.start sp d now t).timer =
    some (double (now + (Talker.nextInterval sp d t.init.rem).2))
  stop : ∀ t, ∀ due ∈ (g.stop t).timer, due ∈ t.timer

/-- One that cancels the timer when it stops. -/
def cancelling : TrafficGenerator where
  start sp d now t :=
    let next := Talker.nextInterval sp d t.init.rem
    { t.init with rem := next.1, running := true, timer := some (double (now + next.2)) }
  stop t := { t with running := false, timer := none }

theorem cancelling_keeps : cancelling.Keeps where
  start _ _ _ _ := rfl
  stop _ := rfl

theorem cancelling_schedules : cancelling.Schedules where
  running _ _ _ _ := rfl
  rem _ _ _ _ := rfl
  timer _ _ _ _ := rfl
  stop _ _ none := by cases none

end TrafficGenerator

namespace Speech

/-- How many packets a deterministic talker sends in a spurt. -/
def spurtLength (sp : Speech) : ℕ := ⌊double (sp.ontime / sp.interval)⌋₊ + 1

/-- How long a deterministic talker waits before its packet `k`: a spurt comes after a pause. -/
def wait (sp : Speech) (k : ℕ) : ℚ :=
  if k % sp.spurtLength = 0 then double (sp.interval + sp.idletime) else sp.interval

/-- When a deterministic talker that is started at `t₀` sends the packet `k`. -/
def scheduled (sp : Speech) (t₀ : ℚ) : ℕ → ℚ
  | 0 => double (t₀ + sp.wait 0)
  | k + 1 => double (scheduled sp t₀ k + sp.wait (k + 1))

end Speech

/-- A burst of three tenths of a second and a packet every tenth. -/
def Speech.tenths : Speech where
  ontime := double (3 / 10)
  idletime := 1 / 2
  interval := double (1 / 10)
  det := true
  ontime_nonneg := by decide +kernel
  idletime_nonneg := by norm_num
  interval_pos := by decide +kernel

def Draw.zero : Draw := ⟨0, 0, le_rfl, le_rfl⟩

/-- A talker that has not been started. -/
def Talker.fresh : Talker where
  rem := 0
  seqno := 0
  sent := 0
  running := false
  timer := none

/-- A talker, the packets on their way, a listener, and all packets that the talker has sent,
the first one first. -/
structure Call where
  clock : ℚ
  talker : Talker
  flight : List HdrVoice
  listener : Listener
  said : List HdrVoice

/-- The talker is started or stopped or its timer expires, the network loses a packet or the
next one arrives, and the listener is reset or asked for a score. -/
inductive CallEvent where
  | start (d : Draw)
  | stop
  | timeout (d : Draw)
  | lose (k : ℕ)
  | arrive
  | reset
  | updateScore

/-- The talker is started or stopped. -/
def CallEvent.steers : CallEvent → Bool
  | .start _ | .stop => true
  | _ => false

namespace Call

/-- What the timer does. -/
def expire (sp : Speech) (d : Draw) (c : Call) : Call :=
  let expired := c.talker.timeout sp d c.clock
  { c with
    talker := expired.1
    flight := c.flight ++ expired.2
    said := c.said ++ expired.2 }

/-- The listener is told something. -/
def tell (log : ℚ → ℚ) (c : Call) (e : VoiceEvent) : Option Call :=
  (c.listener.step log e).map fun l => { c with listener := l }

def act (g : TrafficGenerator) (sp : Speech) (log : ℚ → ℚ) (c : Call) : CallEvent → Option Call
  | .start d => some { c with talker := g.start sp d c.clock c.talker }
  | .stop => some { c with talker := g.stop c.talker }
  | .timeout d => if c.talker.timer = some c.clock then some (c.expire sp d) else none
  | .lose k => some { c with flight := c.flight.eraseIdx k }
  | .arrive => c.flight.head?.bind fun p =>
      ({ c with flight := c.flight.tail }).tell log (.processData p.seqno p.txTime c.clock)
  | .reset => c.tell log .reset
  | .updateScore => c.tell log .updateScore

/-- An event at its time. Time does not pass by a timer that is to expire. -/
def step (g : TrafficGenerator) (sp : Speech) (log : ℚ → ℚ) (c : Call) (e : ℚ × CallEvent) :
    Option Call :=
  if c.clock ≤ e.1 ∧ ∀ t ∈ c.talker.timer, e.1 ≤ t then ({ c with clock := e.1 }).act g sp log e.2
  else none

/-- A call that has not begun. -/
def init (v : Voice) : Call := ⟨0, .fresh, [], v.listen, []⟩

/-- The numbers of the packets that the listener received since its last reset and of those on
their way to it. -/
def onward (c : Call) : List ℤ :=
  (c.listener.received.map Received.seqno).reverse ++ c.flight.map HdrVoice.seqno

/-- The packets of a call have the numbers from zero on, and the listener gets them in this
order and not before they are sent. -/
structure InOrder (c : Call) : Prop where
  numbers : c.said.map HdrVoice.seqno = (List.range c.said.length).map Nat.cast
  next : c.talker.seqno = c.said.length
  order : c.onward.Pairwise (· < ·)
  said : ∀ q ∈ c.onward, 0 ≤ q ∧ q < c.said.length
  past : ∀ p ∈ c.flight, p.txTime ≤ c.clock
  heard : ∀ r ∈ c.listener.received, 0 ≤ r.delay

variable {g : TrafficGenerator} {sp : Speech} {log : ℚ → ℚ} {c c' : Call} {d : Draw}
variable {e : ℚ × CallEvent}

theorem init_inOrder (v : Voice) : (init v).InOrder where
  numbers := rfl
  next := rfl
  order := List.Pairwise.nil
  said := List.forall_mem_nil _
  past := List.forall_mem_nil _
  heard := List.forall_mem_nil _

/-- What an event can do: something is sent, the talker starts or stops, a packet is lost or
received, or the listener is told something else. -/
theorem act_cases {e : CallEvent} (step : c.act g sp log e = some c') :
    (∃ d, c.talker.timer = some c.clock ∧ c' = c.expire sp d) ∨
      (∃ d, e = .start d ∧ c' = { c with talker := g.start sp d c.clock c.talker }) ∨
      (e = .stop ∧ c' = { c with talker := g.stop c.talker }) ∨
      (∃ k, c' = { c with flight := c.flight.eraseIdx k }) ∨
      (∃ p ps l, c.flight = p :: ps ∧
        c.listener.step log (.processData p.seqno p.txTime c.clock) = some l ∧
        c' = { c with flight := ps, listener := l }) ∨
      ∃ v l, (v = .reset ∨ v = .updateScore) ∧ c.listener.step log v = some l ∧
        c' = { c with listener := l } := by
  cases e with
  | start d => exact .inr (.inl ⟨d, rfl, (Option.some.inj step).symm⟩)
  | stop => exact .inr (.inr (.inl ⟨rfl, (Option.some.inj step).symm⟩))
  | timeout d =>
      rw [act] at step
      split_ifs at step with due
      exact .inl ⟨d, due, (Option.some.inj step).symm⟩
  | lose k => exact .inr (.inr (.inr (.inl ⟨k, (Option.some.inj step).symm⟩)))
  | arrive =>
      obtain ⟨p, first, told⟩ := Option.bind_eq_some_iff.mp step
      obtain ⟨ps, flight⟩ := List.head?_eq_some_iff.mp first
      obtain ⟨l, heard, rfl⟩ := Option.map_eq_some_iff.mp told
      exact .inr (.inr (.inr (.inr (.inl ⟨p, ps, l, flight, heard, by rw [flight]; rfl⟩))))
  | reset =>
      rw [act, tell] at step
      obtain ⟨l, heard, rfl⟩ := Option.map_eq_some_iff.mp step
      exact .inr (.inr (.inr (.inr (.inr ⟨_, l, .inl rfl, heard, rfl⟩))))
  | updateScore =>
      rw [act, tell] at step
      obtain ⟨l, heard, rfl⟩ := Option.map_eq_some_iff.mp step
      exact .inr (.inr (.inr (.inr (.inr ⟨_, l, .inr rfl, heard, rfl⟩))))

/-- Numbers that are lost or forgotten leave the others in order. -/
theorem InOrder.sublist (h : c.InOrder) (onward : c'.onward.Sublist c.onward)
    (said : c'.said = c.said) (next : c'.talker.seqno = c.talker.seqno)
    (past : ∀ p ∈ c'.flight, p.txTime ≤ c'.clock)
    (heard : ∀ r ∈ c'.listener.received, 0 ≤ r.delay) : c'.InOrder where
  numbers := by rw [said, h.numbers]
  next := by rw [said, next, h.next]
  order := h.order.sublist onward
  said q mem := said ▸ h.said q (onward.subset mem)
  past := past
  heard := heard

/-- A packet that is sent has the next number. -/
theorem InOrder.expire (h : c.InOrder) : (c.expire sp d).InOrder := by
  unfold Call.expire Talker.timeout
  split_ifs with running
  · dsimp only
    have onward : Call.onward { c with
        flight := c.flight ++ [⟨c.clock, c.talker.seqno⟩] } = c.onward ++ [c.talker.seqno] := by
      simp [Call.onward]
    refine ⟨?_, ?_, ?_, ?_, ?_, h.heard⟩
    · rw [List.length_append, List.length_singleton, List.map_append, h.numbers, List.range_succ,
        List.map_append, List.map_singleton, List.map_singleton, h.next]
    · show c.talker.seqno + 1 = _
      rw [List.length_append, List.length_singleton, h.next, Nat.cast_succ]
    · show (Call.onward { c with flight := c.flight ++ [⟨c.clock, c.talker.seqno⟩] }).Pairwise _
      rw [onward, List.pairwise_append]
      refine ⟨h.order, List.pairwise_singleton _ _, fun q mem q' last => ?_⟩
      rw [List.mem_singleton.mp last, h.next]
      exact (h.said q mem).2
    · show ∀ q ∈ Call.onward { c with flight := c.flight ++ [⟨c.clock, c.talker.seqno⟩] }, _
      rw [onward, List.length_append, List.length_singleton, Nat.cast_succ]
      intro q mem
      obtain old | last := List.mem_append.mp mem
      · have bounds := h.said q old
        omega
      · rw [List.mem_singleton.mp last, h.next]
        omega
    · intro p mem
      obtain old | last := List.mem_append.mp mem
      · exact h.past p old
      · rw [List.mem_singleton.mp last]
  · simp only [List.append_nil]
    exact h.sublist (List.Sublist.refl _) rfl rfl h.past h.heard

theorem InOrder.act {e : CallEvent} (h : c.InOrder) (keeps : g.Keeps)
    (step : c.act g sp log e = some c') : c'.InOrder := by
  obtain ⟨d, -, rfl⟩ | ⟨d, -, rfl⟩ | ⟨-, rfl⟩ | ⟨k, rfl⟩ | ⟨p, ps, l, flight, heard, rfl⟩ |
    ⟨v, l, other, heard, rfl⟩ := act_cases step
  · exact h.expire
  · exact h.sublist (List.Sublist.refl _) rfl (keeps.start sp d c.clock c.talker) h.past h.heard
  · exact h.sublist (List.Sublist.refl _) rfl (keeps.stop c.talker) h.past h.heard
  · have fewer := List.eraseIdx_sublist c.flight k
    exact h.sublist ((List.Sublist.refl _).append (fewer.map _)) rfl rfl
      (fun p mem => h.past p (fewer.subset mem)) h.heard
  · obtain rfl := Option.some.inj heard
    have past := h.past
    rw [flight] at past
    obtain ⟨sent, past⟩ := List.forall_mem_cons.mp past
    refine h.sublist ?_ rfl rfl past
      (List.forall_mem_cons.mpr ⟨mul_nonneg (sub_nonneg.mpr sent) (by norm_num), h.heard⟩)
    simp [onward, flight]
  · obtain rfl | rfl := other
    · obtain rfl := Option.some.inj heard
      exact h.sublist (List.sublist_append_right _ _) rfl rfl h.past (List.forall_mem_nil _)
    · obtain rfl := Option.some.inj heard
      exact h.sublist (List.Sublist.refl _) rfl rfl h.past h.heard

/-- Whatever happens next. -/
theorem InOrder.step (h : c.InOrder) (keeps : g.Keeps) (step : c.step g sp log e = some c') :
    c'.InOrder := by
  rw [Call.step] at step
  split_ifs at step with due
  have later : InOrder { c with clock := e.1 } := h.sublist (List.Sublist.refl _) rfl rfl
    (fun p mem => (h.past p mem).trans due.1) h.heard
  exact later.act keeps step

/-- What the listener has is up to date while its buffer is not full. -/
structure Tracked (l : Listener) : Prop where
  counts : l.Counts
  current : l.received.length ≤ maxDSamp → l.Current

theorem Tracked.step {l l' : Listener} {v : VoiceEvent} (h : Tracked l)
    (step : l.step log v = some l') : Tracked l' := by
  refine ⟨h.counts.step step, fun fits => ?_⟩
  cases v with
  | reset =>
      obtain rfl := Option.some.inj step
      exact listen_current l.voice
  | processData seqno txTime now =>
      have room : l.received.length < maxDSamp := by
        obtain rfl := Option.some.inj step
        exact fits
      exact (h.current room.le).step (replacesOldest_of_lt room) step
  | updateScore =>
      have same : l'.received = l.received := by
        obtain rfl := Option.some.inj step
        rfl
      exact (h.current (same ▸ fits)).step (fun _ _ _ none => by cases none) step

/-- An event of the call is one for the listener, or none. -/
theorem listener_step (step : c.step g sp log e = some c') :
    c'.listener = c.listener ∨ ∃ v, c.listener.step log v = some c'.listener := by
  rw [Call.step] at step
  split_ifs at step
  obtain ⟨d, -, rfl⟩ | ⟨d, -, rfl⟩ | ⟨-, rfl⟩ | ⟨k, rfl⟩ | ⟨p, ps, l, -, heard, rfl⟩ |
    ⟨v, l, -, heard, rfl⟩ := act_cases step
  · exact .inl rfl
  · exact .inl rfl
  · exact .inl rfl
  · exact .inl rfl
  · exact .inr ⟨_, heard⟩
  · exact .inr ⟨_, heard⟩

theorem Tracked.call (h : Tracked c.listener) (step : c.step g sp log e = some c') :
    Tracked c'.listener := by
  obtain same | ⟨v, heard⟩ := listener_step step
  · rwa [same]
  · exact h.step heard

/-- The packets that the talker sent from the first to the latest one received. -/
def span (c : Call) : List HdrVoice :=
  c.said.filter fun p =>
    (c.listener.received.getLast?.map Received.seqno).getD 0 ≤ p.seqno ∧
      p.seqno ≤ (c.listener.received.head?.map Received.seqno).getD 0

section span

theorem bounds_of_decreasing {xs : List ℤ} {q : ℤ} (h : xs.Pairwise (· > ·)) (mem : q ∈ xs) :
    xs.getLast?.getD 0 ≤ q ∧ q ≤ xs.head?.getD 0 := by
  constructor
  · obtain rfl | ⟨ys, last, rfl⟩ := List.eq_nil_or_concat' xs
    · cases mem
    · rw [List.getLast?_concat]
      obtain earlier | here := List.mem_append.mp mem
      · exact ((List.pairwise_append.mp h).2.2 q earlier last (List.mem_singleton_self _)).le
      · exact (List.mem_singleton.mp here).ge
  · cases xs with
    | nil => cases mem
    | cons x xs =>
        obtain rfl | later := List.mem_cons.mp mem
        · exact le_rfl
        · exact ((List.pairwise_cons.mp h).1 q later).le

theorem length_between (a b n : ℕ) :
    ((List.range n).filter fun k => a ≤ k ∧ k ≤ b).length = min n (b + 1) - a := by
  induction n with
  | zero => simp
  | succ n ih =>
      rw [List.range_succ, List.filter_append, List.length_append, ih, List.filter_singleton]
      by_cases inside : a ≤ n ∧ n ≤ b
      · rw [decide_eq_true inside, cond_true, List.length_singleton]
        omega
      · rw [decide_eq_false inside, cond_false, List.length_nil]
        omega

theorem length_casts_between {a b : ℤ} {n : ℕ} (nonneg : 0 ≤ a) (le : a ≤ b) (lt : b < n) :
    ((((List.range n).map (Nat.cast : ℕ → ℤ)).filter fun q => a ≤ q ∧ q ≤ b).length : ℤ) =
      b - a + 1 := by
  lift b to ℕ using nonneg.trans le
  lift a to ℕ using nonneg
  have same : ((fun q : ℤ => decide ((a : ℤ) ≤ q ∧ q ≤ b)) ∘ Nat.cast) =
      fun k : ℕ => decide (a ≤ k ∧ k ≤ b) := by
    funext k
    simp
  rw [List.filter_map, List.length_map, same, length_between]
  omega

/-- The numbers of the span. -/
theorem InOrder.span_seqno (h : c.InOrder) : c.span.map HdrVoice.seqno =
    ((List.range c.said.length).map (Nat.cast : ℕ → ℤ)).filter fun q =>
      (c.listener.received.map Received.seqno).getLast?.getD 0 ≤ q ∧
        q ≤ (c.listener.received.map Received.seqno).head?.getD 0 := by
  rw [← h.numbers, List.filter_map, List.getLast?_map, List.head?_map]
  rfl

/-- What was received was sent in the span, in this order. -/
theorem InOrder.received_sublist (h : c.InOrder) :
    (c.listener.received.map Received.seqno).reverse.Sublist (c.span.map HdrVoice.seqno) := by
  have order := (List.pairwise_append.mp h.order).1
  have decreasing := List.pairwise_reverse.mp order
  rw [h.span_seqno]
  have rising : ((List.range c.said.length).map (Nat.cast : ℕ → ℤ)).Pairwise (· < ·) :=
    List.pairwise_map.mpr (List.pairwise_lt_range.imp fun lt => Nat.cast_lt.mpr lt)
  refine List.sublist_of_subperm_of_pairwise (List.subperm_of_subset order.nodup ?_)
    order.sortedLT.sortedLE.pairwise ((rising.filter _).imp le_of_lt)
  intro q mem
  have bounds := h.said q (List.mem_append_left _ mem)
  refine List.mem_filter.mpr ⟨List.mem_map.mpr ⟨q.toNat, ?_, ?_⟩, ?_⟩
  · exact List.mem_range.mpr (by omega)
  · exact Int.toNat_of_nonneg bounds.1
  · exact decide_eq_true (bounds_of_decreasing decreasing (List.mem_reverse.mp mem))

/-- The span is as long as the listener takes it to be. -/
theorem InOrder.length_span (h : c.InOrder) (some : c.listener.received ≠ []) :
    (c.span.length : ℤ) = c.listener.sent := by
  have decreasing := List.pairwise_reverse.mp (List.pairwise_append.mp h.order).1
  have said : ∀ q ∈ c.listener.received.map Received.seqno, 0 ≤ q ∧ q < c.said.length :=
    fun q mem => h.said q (List.mem_append_left _ (List.mem_reverse.mpr mem))
  have some' : c.listener.received.map Received.seqno ≠ [] := fun none =>
    some (List.map_eq_nil_iff.mp none)
  have numbers := congrArg List.length h.span_seqno
  rw [List.length_map] at numbers
  rw [numbers, Listener.sent, ← List.head?_map, ← List.getLast?_map,
    List.getLast?_eq_some_getLast some', List.head?_eq_some_head some', Option.getD_some,
    Option.getD_some]
  refine length_casts_between (said _ (List.getLast_mem some')).1 ?_
    (said _ (List.head_mem some')).2
  have le := (bounds_of_decreasing decreasing (List.head_mem some')).1
  rwa [List.getLast?_eq_some_getLast some', Option.getD_some] at le

end span

/-- A score in a call, while the buffer is not full, is the best playout of the packets that
the talker sent from the first to the latest one received since the last reset: these packets
were received in the order in which they were sent, and those of them that are missing are
lost. -/
theorem scored (keeps : g.Keeps) (sp : Speech) (log : ℚ → ℚ)
    (increasing : ∀ x y, 0 < x → x < y → log x < log y) (v : Voice) (es : List (ℚ × CallEvent))
    (reach : run (step g sp log) (init v) es = some c) (some : c.listener.received ≠ [])
    (fits : c.listener.received.length ≤ maxDSamp) :
    (c.listener.received.map Received.seqno).reverse.Sublist (c.span.map HdrVoice.seqno) ∧
      (∀ r ∈ c.listener.received, 0 ≤ r.delay) ∧
      Reports log (c.listener.received.map Received.delay)
        (1 - c.listener.received.length / c.span.length) c.listener.voice
        (c.listener.voice.rscore log) := by
  obtain ⟨inOrder, tracked⟩ := run_invariant (I := fun c => c.InOrder ∧ Tracked c.listener)
    ⟨init_inOrder v, listen_counts v, fun _ => listen_current v⟩
    (fun _ _ _ kept step => ⟨kept.1.step keeps step, kept.2.call step⟩) reach
  have sublist := inOrder.received_sublist
  have few := sublist.length_le
  rw [List.length_reverse, List.length_map, List.length_map] at few
  have length := inOrder.length_span some
  have reports := (tracked.current fits).scores increasing (by omega)
  have lost : c.listener.lost = 1 - c.listener.received.length / c.span.length := by
    rw [Listener.lost, ← length, Int.cast_natCast]
  rw [delays, List.take_of_length_le fits, lost] at reports
  exact ⟨sublist, inOrder.heard, reports⟩

/-- Four packets are sent, a spurt and the first one of the next; the first is lost, and the
second takes 60 milliseconds. -/
def brief : List (ℚ × CallEvent) :=
  let due := Speech.tenths.scheduled 0
  [(0, .start .zero), (due 0, .timeout .zero), (due 1, .timeout .zero), (due 1, .lose 0),
    (due 1 + 3 / 50, .arrive), (due 2, .timeout .zero), (due 3, .timeout .zero)]

theorem scored_brief : ∃ c,
    run (step .cancelling .tenths fun x => x - 1) (init .fresh) brief = some c ∧
      Reports (fun x => x - 1) [60] 0 c.listener.voice
        (c.listener.voice.rscore fun x => x - 1) := by
  have ends : (run (step .cancelling .tenths fun x => x - 1) (init .fresh) brief).map
      (fun c => (c.listener.received.map Received.delay, c.span.length)) = some ([60], 1) := by
    decide +kernel
  obtain ⟨c, reach, same⟩ := Option.map_eq_some_iff.mp ends
  obtain ⟨delays, length⟩ := Prod.mk.inj same
  have one : c.listener.received.length = 1 := by
    have count := congrArg List.length delays
    rwa [List.length_map] at count
  have reports := (scored TrafficGenerator.cancelling_keeps .tenths (fun x => x - 1)
    (fun x y _ lt => sub_lt_sub_right lt 1) .fresh brief reach
    (List.length_pos_iff.mp (one ▸ Nat.one_pos)) (one ▸ by decide)).2.2
  rw [delays, one, length, Nat.cast_one, div_one, sub_self] at reports
  exact ⟨c, reach, reports⟩

/-! ## The pace of a talker -/

/-- Packets have been sent at least an interval apart, and the next one will be. -/
structure Paced (sp : Speech) (c : Call) : Prop where
  spoken : ∀ p ∈ c.said, p.txTime ≤ c.clock
  apart : c.said.Pairwise fun p q => double (p.txTime + sp.interval) ≤ q.txTime
  timer : ∀ t ∈ c.talker.timer, ∀ p ∈ c.said, double (p.txTime + sp.interval) ≤ t

theorem interval_le_nextInterval (interval : IsDouble sp.interval) (d : Draw) (rem : ℕ) :
    sp.interval ≤ (Talker.nextInterval sp d rem).2 := by
  unfold Talker.nextInterval Talker.spurt
  split_ifs
  · exact interval.le_double_add sp.idletime_nonneg
  · exact interval.le_double_add d.idle_nonneg
  · exact le_rfl

/-- Nothing is sent, and the timer is not set. -/
theorem Paced.quiet (h : Paced sp c) (said : c'.said = c.said) (clock : c.clock ≤ c'.clock)
    (timer : ∀ t ∈ c'.talker.timer, t ∈ c.talker.timer) : Paced sp c' where
  spoken p mem := (h.spoken p (said ▸ mem)).trans clock
  apart := said ▸ h.apart
  timer t set p mem := h.timer t (timer t set) p (said ▸ mem)

theorem Paced.start (h : Paced sp c) (schedules : g.Schedules) (interval : IsDouble sp.interval)
    (d : Draw) : Paced sp { c with talker := g.start sp d c.clock c.talker } := by
  refine ⟨h.spoken, h.apart, fun t set p mem => ?_⟩
  rw [schedules.timer] at set
  obtain rfl := Option.some.inj set
  exact double_mono (add_le_add (h.spoken p mem) (interval_le_nextInterval interval d _))

theorem Paced.expire (h : Paced sp c) (interval : IsDouble sp.interval)
    (due : c.talker.timer = some c.clock) : Paced sp (c.expire sp d) := by
  unfold Call.expire Talker.timeout
  split_ifs with running
  · refine ⟨?_, ?_, ?_⟩
    · intro p mem
      obtain old | last := List.mem_append.mp mem
      · exact h.spoken p old
      · rw [List.mem_singleton.mp last]
    · refine List.pairwise_append.mpr ⟨h.apart, List.pairwise_singleton _ _, fun p mem q last => ?_⟩
      rw [List.mem_singleton.mp last]
      exact h.timer c.clock due p mem
    · intro t set p mem
      have pause := interval_le_nextInterval interval d c.talker.rem
      dsimp only at set
      split_ifs at set
      · obtain rfl := Option.some.inj set
        obtain old | last := List.mem_append.mp mem
        · exact double_mono (add_le_add (h.spoken p old) pause)
        · rw [List.mem_singleton.mp last]
          exact double_mono (add_le_add le_rfl pause)
      · cases set
  · refine ⟨?_, ?_, fun t none => by cases none⟩
    · simpa using h.spoken
    · simpa using h.apart

theorem Paced.act {e : CallEvent} (h : Paced sp c) (schedules : g.Schedules)
    (interval : IsDouble sp.interval) (step : c.act g sp log e = some c') : Paced sp c' := by
  obtain ⟨d, due, rfl⟩ | ⟨d, -, rfl⟩ | ⟨-, rfl⟩ | ⟨k, rfl⟩ | ⟨p, ps, l, -, -, rfl⟩ |
    ⟨v, l, -, -, rfl⟩ := act_cases step
  · exact h.expire interval due
  · exact h.start schedules interval d
  · exact h.quiet rfl le_rfl (schedules.stop c.talker)
  · exact h.quiet rfl le_rfl fun t set => set
  · exact h.quiet rfl le_rfl fun t set => set
  · exact h.quiet rfl le_rfl fun t set => set

theorem Paced.step (h : Paced sp c) (schedules : g.Schedules) (interval : IsDouble sp.interval)
    (step : c.step g sp log e = some c') : Paced sp c' := by
  rw [Call.step] at step
  split_ifs at step with due
  have later : Paced sp { c with clock := e.1 } := h.quiet rfl due.1 fun t set => set
  exact later.act schedules interval step

/-- Of times that are apart, the last one is not before as many additions. -/
theorem exists_added_le {ts : List ℚ} {δ a : ℚ} (apart : ts.Pairwise fun s t => double (s + δ) ≤ t)
    (inside : ∀ t ∈ ts, a ≤ t) {k : ℕ} (many : k < ts.length) : ∃ t ∈ ts, added δ a k ≤ t := by
  induction ts generalizing a k with
  | nil => exact absurd many k.not_lt_zero
  | cons t ts ih =>
      obtain ⟨later, apart⟩ := List.pairwise_cons.mp apart
      obtain ⟨first, inside⟩ := List.forall_mem_cons.mp inside
      cases k with
      | zero => exact ⟨t, List.mem_cons_self, first⟩
      | succ k =>
          have next := double_mono (add_le_add_left first δ)
          obtain ⟨u, mem, le⟩ := ih apart (fun s mem => next.trans (later s mem))
            (Nat.lt_of_succ_lt_succ many)
          exact ⟨u, List.mem_cons_of_mem _ mem, added_succ δ a k ▸ le⟩

/-- However often a talker is started and stopped, a window of time that ends before `m`
intervals have been added to its beginning has no more than `m` packets. -/
theorem paced (schedules : g.Schedules) (interval : IsDouble sp.interval) (log : ℚ → ℚ) (v : Voice)
    (es : List (ℚ × CallEvent)) (reach : run (step g sp log) (init v) es = some c) {a b : ℚ}
    {m : ℕ} (window : b < added sp.interval a m) :
    (c.said.filter fun p => a ≤ p.txTime ∧ p.txTime ≤ b).length ≤ m := by
  have paced := run_invariant (I := Paced sp)
    ⟨List.forall_mem_nil _, List.Pairwise.nil, fun t none => by cases none⟩
    (fun _ _ _ kept step => kept.step schedules interval step) reach
  have inside : ∀ t ∈ (c.said.filter fun p => a ≤ p.txTime ∧ p.txTime ≤ b).map
      HdrVoice.txTime, a ≤ t ∧ t ≤ b := by
    intro t mem
    obtain ⟨p, kept, rfl⟩ := List.mem_map.mp mem
    simpa using (List.mem_filter.mp kept).2
  by_contra more
  rw [not_le, ← List.length_map HdrVoice.txTime] at more
  obtain ⟨t, mem, late⟩ := exists_added_le (List.pairwise_map.mpr (paced.apart.filter _))
    (fun t mem => (inside t mem).1) more
  exact absurd ((inside t mem).2.trans_lt window) (not_lt.mpr late)

/-- `brief`, and the talker is stopped and started again at once. -/
def restarted : List (ℚ × CallEvent) :=
  let due := Speech.tenths.scheduled 0
  brief ++ [(due 3, .stop), (due 3, .start .zero),
    (Speech.tenths.scheduled (due 3) 0, .timeout .zero)]

/-- The three packets of a spurt, in the window that they span. -/
theorem paced_restarted : ∃ c,
    run (step .cancelling .tenths fun x => x - 1) (init .fresh) restarted = some c ∧
      (c.said.filter fun p => Speech.tenths.scheduled 0 0 ≤ p.txTime ∧
        p.txTime ≤ Speech.tenths.scheduled 0 2).length ≤ 3 := by
  have ends : (run (step .cancelling .tenths fun x => x - 1) (init .fresh)
      restarted).isSome = true := by
    decide +kernel
  obtain ⟨c, reach⟩ := Option.isSome_iff_exists.mp ends
  have interval : IsDouble Speech.tenths.interval := isDouble_double _
  exact ⟨c, reach, paced TrafficGenerator.cancelling_schedules interval (fun x => x - 1) .fresh
    restarted reach (by decide +kernel)⟩

/-! ## Spurts of one length -/

/-- The talker has sent `m` packets since it was started, and is to send the next one. -/
structure OnSchedule (sp : Speech) (t₀ : ℚ) (before : List HdrVoice) (c : Call) (m : ℕ) :
    Prop where
  running : c.talker.running = true
  rem : c.talker.rem = sp.spurtLength - 1 - m % sp.spurtLength
  timer : c.talker.timer = some (sp.scheduled t₀ m)
  due : c.clock ≤ sp.scheduled t₀ m
  past : ∀ k < m, sp.scheduled t₀ k ≤ c.clock
  said : ∃ sent, c.said = before ++ sent ∧
    sent.map HdrVoice.txTime = (List.range m).map (sp.scheduled t₀)

theorem spurtLength_pos (sp : Speech) : 0 < sp.spurtLength := Nat.succ_pos _

theorem nextInterval_det (det : sp.det = true) (d : Draw) {rem m : ℕ}
    (left : rem = sp.spurtLength - 1 - m % sp.spurtLength) : Talker.nextInterval sp d rem =
      (sp.spurtLength - 1 - (m + 1) % sp.spurtLength, sp.wait (m + 1)) := by
  have pos := spurtLength_pos sp
  have lt := Nat.mod_lt m pos
  have spurt : Talker.spurt sp d = (sp.spurtLength, sp.idletime) := by
    rw [Talker.spurt, if_pos det]
    rfl
  have split := Nat.div_add_mod m sp.spurtLength
  rw [Talker.nextInterval, spurt, Speech.wait]
  -- The spurt is over, or it goes on.
  by_cases last : m % sp.spurtLength + 1 = sp.spurtLength
  · have first : (m + 1) % sp.spurtLength = 0 := by
      rw [← Nat.mod_add_mod, last, Nat.mod_self]
    rw [if_pos (by omega), if_pos first, first, Nat.sub_zero]
  · have next : (m + 1) % sp.spurtLength = m % sp.spurtLength + 1 := by
      rw [← Nat.mod_add_mod, Nat.mod_eq_of_lt (by omega)]
    rw [if_neg (by omega), if_neg (by omega), next, left, Nat.sub_sub _ _ 1]

theorem nextInterval_init (det : sp.det = true) (d : Draw) (t : Talker) :
    Talker.nextInterval sp d t.init.rem = (sp.spurtLength - 1, sp.wait 0) := by
  have begins : t.init.rem = 0 := rfl
  rw [Talker.nextInterval, if_pos begins, Talker.spurt, if_pos det, Speech.wait, Nat.zero_mod,
    if_pos rfl]
  rfl

theorem wait_pos (interval : IsDouble sp.interval) (k : ℕ) : 0 < sp.wait k := by
  unfold Speech.wait
  split_ifs
  · exact sp.interval_pos.trans_le (interval.le_double_add sp.idletime_nonneg)
  · exact sp.interval_pos

theorem isDouble_scheduled (sp : Speech) (t₀ : ℚ) (m : ℕ) : IsDouble (sp.scheduled t₀ m) := by
  cases m with
  | zero => exact isDouble_double _
  | succ m => exact isDouble_double _

theorem scheduled_le_succ (interval : IsDouble sp.interval) (t₀ : ℚ) (m : ℕ) :
    sp.scheduled t₀ m ≤ sp.scheduled t₀ (m + 1) :=
  (isDouble_scheduled sp t₀ m).le_double_add (wait_pos interval _).le

variable {t₀ : ℚ} {before : List HdrVoice} {m : ℕ}

theorem OnSchedule.expire (h : OnSchedule sp t₀ before c m) (det : sp.det = true)
    (interval : IsDouble sp.interval) (due : c.talker.timer = some c.clock) :
    OnSchedule sp t₀ before (c.expire sp d) (m + 1) := by
  have now : c.clock = sp.scheduled t₀ m := Option.some.inj (due.symm.trans h.timer)
  have later := scheduled_le_succ interval t₀ m
  have next := nextInterval_det det d h.rem
  obtain ⟨sent, said, times⟩ := h.said
  unfold Call.expire Talker.timeout
  rw [if_pos h.running, next]
  refine ⟨h.running, rfl, ?_, ?_, ?_, sent ++ [⟨c.clock, c.talker.seqno⟩], ?_, ?_⟩
  · show (if 0 < sp.wait (m + 1) then some (double (c.clock + sp.wait (m + 1))) else none) = _
    rw [if_pos (wait_pos interval _), now]
    rfl
  · exact now.le.trans later
  · intro k hk
    obtain old | rfl := Nat.lt_succ_iff_lt_or_eq.mp hk
    · exact h.past k old
    · exact now.ge
  · show c.said ++ _ = _
    rw [said, List.append_assoc]
  · rw [List.map_append, times, List.range_succ, List.map_append, List.map_singleton,
      List.map_singleton, now]

/-- A talker that is neither stopped nor started again stays on schedule. -/
theorem OnSchedule.step (h : OnSchedule sp t₀ before c m) (det : sp.det = true)
    (interval : IsDouble sp.interval) (talks : e.2.steers = false)
    (step : c.step g sp log e = some c') : ∃ m, OnSchedule sp t₀ before c' m := by
  rw [Call.step] at step
  split_ifs at step with inTime
  have due : e.1 ≤ sp.scheduled t₀ m := inTime.2 _ h.timer
  have h : OnSchedule sp t₀ before { c with clock := e.1 } m :=
    ⟨h.running, h.rem, h.timer, due, fun k hk => (h.past k hk).trans inTime.1, h.said⟩
  obtain ⟨d, expired, rfl⟩ | ⟨d, again, -⟩ | ⟨ended, -⟩ | ⟨k, rfl⟩ | ⟨p, ps, l, -, -, rfl⟩ |
    ⟨v, l, -, -, rfl⟩ := act_cases step
  · exact ⟨m + 1, h.expire det interval expired⟩
  · rw [again] at talks
    cases talks
  · rw [ended] at talks
    cases talks
  · exact ⟨m, h.running, h.rem, h.timer, h.due, h.past, h.said⟩
  · exact ⟨m, h.running, h.rem, h.timer, h.due, h.past, h.said⟩
  · exact ⟨m, h.running, h.rem, h.timer, h.due, h.past, h.said⟩

/-- A deterministic talker that is started sends spurts of equally many packets, an interval
apart and with the same pause before each spurt, whatever else happens until it is stopped:
at any time it has sent those packets that were due. -/
theorem spurts (schedules : g.Schedules) (det : sp.det = true) (interval : IsDouble sp.interval)
    (log : ℚ → ℚ) (c : Call) (now : IsDouble c.clock) (d : Draw) (es : List (ℚ × CallEvent))
    (talks : ∀ e ∈ es, e.2.steers = false)
    (reach : run (step g sp log) { c with talker := g.start sp d c.clock c.talker } es = some c') :
    ∃ m sent, c'.said = c.said ++ sent ∧
      sent.map HdrVoice.txTime = (List.range m).map (sp.scheduled c.clock) ∧
      (∀ k < m, sp.scheduled c.clock k ≤ c'.clock) ∧ c'.clock ≤ sp.scheduled c.clock m := by
  have next := nextInterval_init det d c.talker
  have started : OnSchedule sp c.clock c.said
      { c with talker := g.start sp d c.clock c.talker } 0 := by
    refine ⟨schedules.running sp d c.clock c.talker, ?_, ?_,
      now.le_double_add (wait_pos interval 0).le, fun k none => absurd none k.not_lt_zero, [], ?_,
      rfl⟩
    · exact (schedules.rem sp d c.clock c.talker).trans (congrArg Prod.fst next)
    · exact (schedules.timer sp d c.clock c.talker).trans (by rw [next]; rfl)
    · exact (List.append_nil _).symm
  obtain ⟨m, h⟩ := run_invariant_along (I := fun a => ∃ m, OnSchedule sp c.clock c.said a m)
    ⟨0, started⟩ (along_of_forall fun e mem _ => talks e mem)
    (fun _ _ _ ⟨_, kept⟩ talks step => kept.step det interval talks step) reach
  obtain ⟨sent, said, times⟩ := h.said
  exact ⟨m, sent, said, times, h.past, h.due⟩

/-- The quotient of the two doubles is below three. -/
theorem spurts_brief : Speech.tenths.spurtLength = 3 ∧ ∃ c m sent,
    run (step .cancelling .tenths fun x => x - 1)
      { init .fresh with talker := TrafficGenerator.cancelling.start .tenths .zero 0 .fresh }
      brief.tail = some c ∧
    c.said = [] ++ sent ∧
    sent.map HdrVoice.txTime = (List.range m).map (Speech.tenths.scheduled 0) ∧
    (∀ k < m, Speech.tenths.scheduled 0 k ≤ c.clock) ∧ c.clock ≤ Speech.tenths.scheduled 0 m := by
  have ends : (run (step .cancelling .tenths fun x => x - 1)
      { init .fresh with talker := TrafficGenerator.cancelling.start .tenths .zero 0 .fresh }
      brief.tail).isSome = true := by
    decide +kernel
  obtain ⟨c, reach⟩ := Option.isSome_iff_exists.mp ends
  have interval : IsDouble Speech.tenths.interval := isDouble_double _
  obtain ⟨m, sent, schedule⟩ := spurts TrafficGenerator.cancelling_schedules rfl interval
    (fun x => x - 1) (init .fresh) isDouble_zero .zero brief.tail (by decide) reach
  exact ⟨by decide +kernel, c, m, sent, reach, schedule⟩

end Call

end Mftdma.Traffic
