import Mftdma.Execution.Lanes
import Mftdma.Mpeg.Entries
import Mftdma.Mpeg.Loss

/-!
# ULE from many senders

A receiver finds the slot of a `pid_` by probing. When the senders have different home
slots, no search goes past its first slot, and `mux_lanes` says that the table is one slot
for each sender: what is heard of one sender, or lost, does not matter to the others.

`mux_exact` puts this together with what one sender and one slot do. However the cells of
the senders are mixed on their way, and whichever are lost, the packets of each sender
that go up are those that came through as a whole.
-/

namespace Mftdma.Mpeg

open Execution

variable {ι : Type*} {pid : ι → ℕ} {s t : MpegLL} {i : ι}

namespace MpegLL

/-- The receiver `me` hears a cell of one of the senders. -/
def hear (pid : ι → ℕ) (me : ℕ) (s : MpegLL) (c : ι × List Frag) : Option MpegLL :=
  step me s (.receive (pid c.1) c.2)

/-- The packets that go up with a cell. -/
def gives (pid : ι → ℕ) (me : ℕ) (s : MpegLL) (c : ι × List Frag) : List Packet :=
  (s.hear pid me c).elim [] fun t => t.up.drop s.up.length

/-- What is in the slots is of the senders, each in its home slot. -/
def Homed (pid : ι → ℕ) (s : MpegLL) : Prop :=
  ∀ l r, s.rxBuffer l = some r → ∃ i, l = home (pid i) ∧ r.addr = pid i

end MpegLL

/-- A slot after a cell of its sender, and the packets that it gives. -/
def slotTurn (pid : ι → ℕ) (b : Option RxPacket) (c : ι × List Frag) :
    Option RxPacket × List Packet :=
  c.2.foldl (RxPacket.accept (pid c.1)) (b, [])

/-- The packets that have gone up do not matter to a slot. -/
theorem foldl_accept_up (addr : ℕ) (b : Option RxPacket) (up : List Packet) (frags : List Frag) :
    frags.foldl (RxPacket.accept addr) (b, up) =
      ((frags.foldl (RxPacket.accept addr) (b, [])).1,
        up ++ (frags.foldl (RxPacket.accept addr) (b, [])).2) := by
  induction frags generalizing b up with
  | nil => simp
  | cons f frags ih =>
      rw [List.foldl_cons, List.foldl_cons, RxPacket.accept, RxPacket.accept]
      dsimp only
      split_ifs
      · rw [ih, ih none ([] ++ _)]
        simp
      · exact ih _ up

section lanes

variable (apart : ∀ i j, i ≠ j → home (pid i) ≠ home (pid j)) {me : ℕ} {c : ι × List Frag}

namespace MpegLL

theorem homed_init (pid : ι → ℕ) : init.Homed pid := fun _ _ h => by cases h

namespace Homed

include apart in
/-- A cell goes to the home slot of its sender, and leaves the other slots alone. -/
theorem exists_hear (h : s.Homed pid) (me : ℕ) (c : ι × List Frag) :
    ∃ m, s.hear pid me c = some m ∧ m.Homed pid ∧
      (m.rxBuffer (home (pid c.1)), m.up) =
        c.2.foldl (RxPacket.accept (pid c.1)) (s.rxBuffer (home (pid c.1)), s.up) ∧
      ∀ l, l ≠ home (pid c.1) → m.rxBuffer l = s.rxBuffer l := by
  obtain ⟨i, frags⟩ := c
  let w := frags.foldl (RxPacket.accept (pid i)) (s.rxBuffer (home (pid i)), s.up)
  let m : MpegLL := { s with rxBuffer := Function.update s.rxBuffer (home (pid i)) w.1, up := w.2 }
  have here : m.rxBuffer (home (pid i)) = w.1 := Function.update_self ..
  have mine : ∀ r, s.rxBuffer (home (pid i)) = some r → r.addr = pid i := by
    intro r held
    obtain ⟨j, slot, addr⟩ := h _ r held
    obtain rfl : i = j := by
      by_contra other
      exact apart i j other slot
    exact addr
  have looked : getQueue s.rxAddrs (pid i) = some (home (pid i)) := by
    apply Probing.lookup_home
    intro b hb
    obtain ⟨r, held, rfl⟩ := Option.map_eq_some_iff.mp hb
    exact mine r held
  have stepped : s.sendUp (pid i) frags = some m := by
    rw [sendUp, looked]
    rfl
  refine ⟨m, stepped, fun l r hr => ?_, by rw [here], fun l hl => Function.update_of_ne hl ..⟩
  by_cases same : l = home (pid i)
  · subst same
    rw [here] at hr
    exact ⟨i, rfl, addr_of_accept mine frags r hr⟩
  · have old : m.rxBuffer l = s.rxBuffer l := Function.update_of_ne same ..
    exact h l r (old ▸ hr)

include apart in
/-- The packets that go up come behind those before, and are those that the slot gives. -/
theorem of_hear (h : s.Homed pid) (stepped : s.hear pid me c = some t) :
    t.Homed pid ∧ t.up = s.up ++ s.gives pid me c ∧
      slotTurn pid (s.rxBuffer (home (pid c.1))) c =
        (t.rxBuffer (home (pid c.1)), s.gives pid me c) ∧
      ∀ l, l ≠ home (pid c.1) → t.rxBuffer l = s.rxBuffer l := by
  obtain ⟨m, same, homed, slot, others⟩ := h.exists_hear apart me c
  obtain rfl := Option.some.inj (same.symm.trans stepped)
  rw [foldl_accept_up, Prod.mk.injEq] at slot
  have given : s.gives pid me c = (slotTurn pid (s.rxBuffer (home (pid c.1))) c).2 := by
    rw [gives, stepped, Option.elim_some, slot.2, List.drop_left]
    rfl
  exact ⟨homed, given ▸ slot.2, Prod.ext slot.1.symm given.symm, others⟩

end Homed

end MpegLL

include apart in
/-- With different home slots the table is one slot for each sender. -/
theorem mux_lanes (me : ℕ) :
    Lanes (MpegLL.hear pid me) (MpegLL.gives pid me) (fun c => some c.1)
      (fun b c => some (slotTurn pid b c).1) (fun b c => (slotTurn pid b c).2)
      (MpegLL.Homed pid) (fun s i b => s.rxBuffer (home (pid i)) = b) where
  keep s c t h stepped := (h.of_hear apart stepped).1
  total s i _ := ⟨_, rfl⟩
  own s c t i b h stepped key rep := by
    obtain rfl := Option.some.inj key
    obtain ⟨-, -, slot, -⟩ := h.of_hear apart stepped
    exact ⟨_, rfl, by rw [slot, rep], by rw [slot]⟩
  other s c t i b h stepped key rep := by
    obtain ⟨-, -, -, others⟩ := h.of_hear apart stepped
    rw [← others _ (apart i c.1 fun same => key (congrArg _ same.symm))]
    exact rep
  stuck s c h fails := by
    obtain ⟨m, same, -⟩ := h.exists_hear apart me c
    cases same.symm.trans fails

end lanes

theorem run_slotTurn (pid : ι → ℕ) (b : Option RxPacket) (cells : List (ι × List Frag)) :
    (run (fun b c => some (slotTurn pid b c).1) b cells).isSome = true := by
  induction cells generalizing b with
  | nil => rfl
  | cons c cells ih => exact ih _

/-- A slot puts the fragments together as if they all came in one cell. -/
theorem outputs_slotTurn (i : ι) (b : Option RxPacket) (cells : List (List Frag)) :
    outputs (fun b c => some (slotTurn pid b c).1) (fun b c => (slotTurn pid b c).2) b
        (cells.map (Prod.mk i)) =
      (cells.flatten.foldl (RxPacket.accept (pid i)) (b, [])).2 := by
  induction cells generalizing b with
  | nil => rfl
  | cons frags cells ih =>
      rw [List.map_cons, outputs, Option.elim_some, ih, List.flatten_cons, List.foldl_append]
      exact (congrArg Prod.snd (foldl_accept_up (pid i) _ _ cells.flatten)).symm

/-- What a sender emits, cell by cell, and what one slot makes of what arrives of it. -/
theorem slot_of_sender {es : List Event} {id d : ℕ}
    (comes : Along (step id) (Comes d) MpegLL.init es)
    (distinct : ((packetsOf es).map Packet.uid).Nodup) (keep : ℕ → Bool) :
    ∃ t, run (step id) MpegLL.init es = some t ∧
      (∀ c ∈ arriving keep (MpegLL.emitted id MpegLL.init es), c.1 = id) ∧
      (((arriving keep (MpegLL.emitted id MpegLL.init es)).flatMap Prod.snd).foldl
          (RxPacket.accept id) (none, [])).2 =
        (packetsOf es).filter fun p =>
          Travelled keep (MpegLL.emitted id MpegLL.init es) t p.uid := by
  obtain ⟨t, reach, single, sent, frags, line, cut⟩ := MpegLL.sender_run comes
  refine ⟨t, reach, fun c hc => ?_, ?_⟩
  · obtain ⟨⟨c, i⟩, numbered, rfl⟩ := List.mem_map.mp hc
    have emitted := List.fst_mem_of_mem_zipIdx (List.mem_of_mem_filter numbered)
    rw [sent] at emitted
    obtain ⟨c, gone, rfl⟩ := List.mem_map.mp emitted
    exact single.pid c (.inr gone)
  -- the cells by number, and the open cell, which is never heard
  · have frags_eq : (marks keep (MpegLL.emitted id MpegLL.init es).zipIdx ++
        mark false (t.openFrags (home d))).map Prod.fst = frags.flatten := by
      rw [List.map_append, map_fst_marks, map_fst_mark, List.zipIdx_map_fst, sent, ← line,
        MpegLL.line, List.flatMap_map]
      rfl
    obtain ⟨cuts, marked, all⟩ := exists_markedCuts cut frags_eq
    have arrived : heardOf cuts.flatten =
        (arriving keep (MpegLL.emitted id MpegLL.init es)).flatMap Prod.snd := by
      rw [← marked, heardOf_append, heardOf_marks, heardOf_mark]
      exact List.append_nil _
    rw [← arrived, accept_cuts id all distinct (fun r hr => by cases hr), ← marked]
    exact List.filter_congr fun p _ => decide_eq_decide.mpr (whole_iff_travelled single)

section mux

variable [DecidableEq ι]

/-- However the cells of the senders are mixed, and whichever of them are lost: the receiver
does not abort, and of each sender it hands up the packets that came through as a whole, each
once and in order. The senders have one next hop each, different home slots and packets that
find an entry left, so that no payload gets more entries than its arrays have. -/
theorem mux_exact (pid : ι → ℕ) (apart : ∀ i j, i ≠ j → home (pid i) ≠ home (pid j))
    (hop : ι → ℕ) (es : ι → List Event)
    (comes : ∀ i, Along (step (pid i)) (fun s e => Comes (hop i) s e ∧ s.FindsEntry e)
      MpegLL.init (es i))
    (distinct : ∀ i, ((packetsOf (es i)).map Packet.uid).Nodup) (keep : ι → ℕ → Bool)
    (air : List (ι × ℕ × List Frag))
    (mixed : ∀ i, own i air = arriving (keep i) (MpegLL.emitted (pid i) MpegLL.init (es i)))
    (me : ℕ) :
    ∃ (t : ι → MpegLL) (r : MpegLL) (ups : List (ι × Packet)),
      (∀ i, run (step (pid i)) MpegLL.init (es i) = some (t i) ∧ (t i).Inside) ∧
      run (step me) MpegLL.init (air.map fun c => arrival c.2) = some r ∧
      r.up = ups.map Prod.snd ∧
      ∀ i, own i ups = (packetsOf (es i)).filter fun p =>
        Travelled (keep i) (MpegLL.emitted (pid i) MpegLL.init (es i)) (t i) p.uid := by
  choose t reach source slot using fun i =>
    slot_of_sender ((comes i).mono fun _ _ h => h.1) (distinct i) (keep i)
  have inside : ∀ i, (t i).Inside := fun i =>
    run_invariant_along (I := MpegLL.Inside) MpegLL.inside_init (comes i)
      (fun _ _ _ inside h stepped => inside.step h.2 stepped) (reach i)
  let cells : List (ι × List Frag) := air.map fun c => (c.1, c.2.2)
  have heard : run (step me) MpegLL.init (air.map fun c => arrival c.2) =
      run (MpegLL.hear pid me) MpegLL.init cells := by
    have events : (air.map fun c => arrival c.2) =
        cells.map fun c => Event.receive (pid c.1) c.2 := by
      rw [List.map_map]
      refine List.map_congr_left fun c hc => ?_
      have mine : c.2 ∈ own c.1 air := List.mem_map_of_mem (List.mem_filter.mpr ⟨hc, by simp⟩)
      rw [mixed] at mine
      exact congrArg (Event.receive · c.2.2) (source c.1 c.2 mine)
    rw [events, run_map]
    rfl
  obtain ⟨start, rep, ends, follows⟩ := (mux_lanes apart me).split (MpegLL.homed_init pid) cells
  obtain rfl : (fun _ => none) = start := funext rep
  obtain ⟨r, received⟩ := Option.isSome_iff_exists.mp (ends.mpr fun i => run_slotTurn pid _ _)
  refine ⟨t, r, outputs (MpegLL.hear pid me) (fun s c => (s.gives pid me c).map (Prod.mk c.1))
    MpegLL.init cells, fun i => ⟨reach i, inside i⟩, heard.trans received, ?_, fun i => ?_⟩
  · rw [map_snd_outputs]
    exact run_record MpegLL.up (MpegLL.homed_init pid) (mux_lanes apart me).keep
      (fun s c m h stepped => (h.of_hear apart stepped).2.1) received
  · have lane : ofKey (fun c : ι × List Frag => some c.1) i cells =
        ((arriving (keep i) (MpegLL.emitted (pid i) MpegLL.init (es i))).map Prod.snd).map
          (Prod.mk i) := by
      have same : ((fun e : ι × List Frag => decide (some e.1 = some i)) ∘
          fun c : ι × ℕ × List Frag => (c.1, c.2.2)) = fun c => decide (c.1 = i) :=
        funext fun c => decide_eq_decide.mpr Option.some_inj
      rw [← mixed, ofKey, own, List.filter_map, same, List.map_map, List.map_map]
      refine List.map_congr_left fun c hc => ?_
      have mine := of_decide_eq_true (List.mem_filter.mp hc).2
      exact congrArg (·, c.2.2) mine
    rw [own_outputs, ← (follows r received i).same, lane, outputs_slotTurn, ← slot]
    rfl

/-- The cells of two stations that send the same packets, by turns; the second cell of the one
that is not `true` is lost. -/
def byTurns : List (Bool × ℕ × List Frag) :=
  let cells := MpegLL.emitted 3 MpegLL.init flushed
  let others := MpegLL.emitted 4 MpegLL.init flushed
  (others.take 1).map (Prod.mk true) ++ (cells.take 1).map (Prod.mk false) ++
    (others.drop 1).map (Prod.mk true) ++ (cells.drop 2).map (Prod.mk false)

/-- Of the station 3 only the packet in its first cell goes up, of the station 4 both. -/
theorem mux_exact_byTurns : ∃ (r : MpegLL) (ups : List (Bool × Packet)),
    run (step 9) MpegLL.init (byTurns.map fun c => arrival c.2) = some r ∧
      r.up = ups.map Prod.snd ∧ own false ups = [⟨0, 1, 40⟩] ∧
      own true ups = [⟨0, 1, 40⟩, ⟨1, 1, 300⟩] := by
  let pid : Bool → ℕ := fun b => if b then 4 else 3
  let keep : Bool → ℕ → Bool := fun b k => b || k != 1
  have apart : ∀ i j, i ≠ j → home (pid i) ≠ home (pid j) := by decide
  have comes : ∀ i, Along (step (pid i)) (fun s e => Comes 1 s e ∧ s.FindsEntry e)
      MpegLL.init flushed := by
    decide +kernel
  have distinct : ((packetsOf flushed).map Packet.uid).Nodup := by decide
  have mixed : ∀ i, own i byTurns =
      arriving (keep i) (MpegLL.emitted (pid i) MpegLL.init flushed) := by decide +kernel
  obtain ⟨t, r, ups, reach, received, up, each⟩ := mux_exact pid apart (fun _ => 1)
    (fun _ => flushed) comes (fun _ => distinct) keep byTurns mixed 9
  have whole : ∀ i, ∀ t ∈ run (step (pid i)) MpegLL.init flushed,
      ((packetsOf flushed).filter fun p => Travelled (keep i)
        (MpegLL.emitted (pid i) MpegLL.init flushed) t p.uid) =
      if i then [⟨0, 1, 40⟩, ⟨1, 1, 300⟩] else [⟨0, 1, 40⟩] := by decide +kernel
  exact ⟨r, ups, received, up, (each false).trans (whole false _ (reach false).1),
    (each true).trans (whole true _ (reach true).1)⟩

end mux

end Mftdma.Mpeg
