import Mftdma.Allocator.Drain
import Mftdma.Allocator.Fairness

/-!
# Nobody is overtaken

`cur_term` keeps its place from one loop to the next and from one superframe to the next, and
it moves on only past terminals that are served, ask for nothing or find no free cell. So while
a terminal that may use every frame waits with an open request, all bursts go to terminals
between the turn and itself, in this order: `turns_in_order`.

In SLOT_MODE each burst moves the turn on. Rounds use up all slots as long as a terminal waits,
so it gets a burst before the others have had one each: `slotMode_waits`.
-/

namespace Mftdma.Allocator

open Cyclic Execution

variable {n nf : ℕ}

/-- The rules of the terminal `u` open every frame to requests of any size. -/
def Config.OpensAll (cfg : Config n nf) (u : Fin n) : Prop :=
  ∀ f, ∃ r ∈ cfg.rules u, r.rule ≠ 1 ∧ r.fp = f

/-- How far each burst moves the turn. -/
def Config.stride (cfg : Config n nf) : ℕ := if cfg.mode = slotMode then 1 else 0

/-- The TBTP has a burst for the terminal `u`. -/
def HasBurst (u : Fin n) (bdes : List (BurstDes n)) : Prop := ∃ b ∈ bdes, b.assignmentId = u

/-- From the terminal `c` on, the bursts `bs` have been sent in turn, and the turn has not
passed the terminal `u`, which waits. -/
structure Walked (cfg : Config n nf) (c u : Fin n) (bs : List (BurstDes n))
    (al : AllocatorMFTDMA n nf) : Prop where
  more : 0 < al.deficit u
  turn : gap c al.curTerm ≤ gap c u
  sent : ∀ b ∈ bs, gap c b.assignmentId + cfg.stride ≤ gap c al.curTerm
  order : bs.Pairwise fun b b' => gap c b.assignmentId + cfg.stride ≤ gap c b'.assignmentId

/-- The terminal `u` waits with a deficit or with a volume. -/
def Network.Waiting (u : Fin n) (w : Network n nf) : Prop :=
  0 < w.al.deficit u + w.al.reqvVolume u

section round

variable {cfg : Config n nf} {a : Assign n nf} {c u : Fin n} {past : List (BurstDes n)}

theorem granted_of_none {bdes : List (BurstDes n)} (none : ¬ HasBurst u bdes) :
    granted u bdes = 0 := by
  have empty : (bdes.filter fun b => b.assignmentId = u) = [] :=
    List.filter_eq_nil_iff.mpr fun b mem own => none ⟨b, mem, of_decide_eq_true own⟩
  rw [granted, empty]
  rfl

theorem HasBurst.body (h : HasBurst u a.bdes) : HasBurst u (a.body cfg).bdes := by
  obtain ⟨b, mem, own⟩ := h
  obtain ⟨same, -⟩ | ⟨w, -, granted⟩ := a.body_grants cfg
  · exact ⟨b, same ▸ mem, own⟩
  · rw [granted]
    exact ⟨b, List.mem_append_left _ mem, own⟩

/-- As long as there are slots, a terminal without a burst can be served. -/
theorem feasible_of_slots (accounted : a.Accounted cfg) (opens : cfg.OpensAll u)
    (slots : a.freeslots ≠ 0) (none : ¬ HasBurst u a.bdes) (more : 0 < a.deficit u) :
    a.Feasible cfg u := by
  have some : (a.store.freeCells cfg).Nonempty := by
    rw [← Finset.card_ne_zero, ← accounted.slots]
    exact slots
  obtain ⟨c, mem⟩ := some
  obtain ⟨hc, free⟩ := Store.mem_freeCells.mp mem
  obtain ⟨r, listed, large, same⟩ := opens c.1
  have clear := (accounted.clear u).resolve_left none
  exact ⟨more, r, listed, .inl large, same ▸ usable_of_clear hc free clear⟩

/-- The search for a positive deficit stops at the terminal that waits, or before. -/
theorem Walked.pick (h : Walked cfg c u past a.toAllocatorMFTDMA) :
    gap c a.curTerm ≤ gap c a.pick.2 ∧ gap c a.pick.2 ≤ gap c u := by
  obtain ⟨m, -, picked, skipped, -⟩ := a.pick_spec
  have term : a.pick.2 = advance c (gap c a.curTerm + m) := by
    rw [picked, advance_eq_from c]
  have within : gap c a.curTerm + m ≤ gap c u := by
    by_contra passed
    have turn := h.turn
    have nonpositive := skipped (gap c u - gap c a.curTerm) (by omega)
    rw [advance_eq_from c, Nat.add_sub_cancel' turn, advance_gap] at nonpositive
    exact absurd h.more (not_lt.mpr nonpositive)
  rw [term, gap_advance c (within.trans_lt (gap_lt c u))]
  exact ⟨Nat.le_add_right _ _, within⟩

/-- The turn goes on behind a terminal before the one that waits. -/
theorem gap_next {v : Fin n} (le : gap c v ≤ gap c u) (other : v ≠ u) :
    gap c (advance v 1) = gap c v + 1 ∧ gap c v + 1 ≤ gap c u := by
  have less : gap c v < gap c u := by
    refine lt_of_le_of_ne le fun same => other ?_
    rw [← advance_gap c v, same, advance_gap]
  exact ⟨gap_advance_one (Nat.lt_of_le_of_lt less (gap_lt c u)), less⟩

/-- A burst for another terminal keeps the order. -/
theorem Walked.grant {left : ℕ} {w : Search n nf}
    (h : Walked cfg c u (past ++ a.bdes) a.toAllocatorMFTDMA) (other : a.pick.2 ≠ u) :
    Walked cfg c u (past ++ (a.grant cfg left a.pick.2 w).bdes)
      (a.grant cfg left a.pick.2 w).toAllocatorMFTDMA := by
  obtain ⟨low, high⟩ := h.pick
  obtain ⟨next, within⟩ := gap_next high other
  have turn : gap c (a.grant cfg left a.pick.2 w).curTerm = gap c a.pick.2 + cfg.stride := by
    unfold Assign.grant Config.stride
    dsimp only
    split_ifs
    · exact next
    · rfl
  have short : cfg.stride ≤ 1 := by
    unfold Config.stride
    split_ifs <;> decide
  refine ⟨?_, ?_, ?_, ?_⟩
  · simp only [Assign.grant, Function.update_of_ne (Ne.symm other)]
    exact h.more
  · rw [turn]
    omega
  · rw [turn, Assign.grant, ← List.append_assoc, List.forall_mem_append]
    refine ⟨fun b mem => ?_, List.forall_mem_singleton.mpr le_rfl⟩
    have before := h.sent b mem
    omega
  · rw [Assign.grant, ← List.append_assoc, List.pairwise_append]
    refine ⟨h.order, List.pairwise_singleton _ _, fun b mem b' new => ?_⟩
    obtain rfl := List.mem_singleton.mp new
    exact (h.sent b mem).trans low

/-- Each pass serves the terminal that waits, or keeps the order. -/
theorem Walked.body (h : Walked cfg c u (past ++ a.bdes) a.toAllocatorMFTDMA)
    (knownMode : cfg.KnownMode) (knownLayout : cfg.KnownLayout) (accounted : a.Accounted cfg)
    (opens : cfg.OpensAll u) (none : ¬ HasBurst u a.bdes)
    (guard : (assignTimeslot cfg).guard a = true) : HasBurst u (a.body cfg).bdes ∨
      Walked cfg c u (past ++ (a.body cfg).bdes) (a.body cfg).toAllocatorMFTDMA := by
  obtain ⟨low, high⟩ := h.pick
  have grant : ∀ left w, HasBurst u (a.grant cfg left a.pick.2 w).bdes ∨
      Walked cfg c u (past ++ (a.grant cfg left a.pick.2 w).bdes)
        (a.grant cfg left a.pick.2 w).toAllocatorMFTDMA := by
    intro left w
    by_cases here : a.pick.2 = u
    · left
      exact ⟨_, List.mem_append_right _ (List.mem_singleton.mpr rfl), here⟩
    · exact .inr (h.grant here)
  have pass := a.body_pass cfg
  generalize a.body cfg = a' at pass ⊢
  cases pass with
  | exhausted out => exact .inr ⟨h.more, high, fun b mem => (h.sent b mem).trans low, h.order⟩
  | granted r i j some mem eligible cell free => exact grant _ _
  | stale stale => exact grant _ _
  | refused offset some full =>
      have other : a.pick.2 ≠ u := by
        intro here
        refine full knownLayout (here ▸ ?_)
        exact feasible_of_slots accounted opens (guard_iff.mp guard).1 none h.more
      obtain ⟨next, within⟩ := gap_next high other
      have turn : gap c (a.refuse cfg a.pick.1 a.pick.2 ⟨.null, offset, a.store⟩).curTerm =
          gap c a.pick.2 + 1 := by
        simp only [Assign.refuse, if_pos knownMode.symm, next]
      refine .inr ⟨h.more, ?_, fun b mem => ?_, h.order⟩
      · rw [turn]
        exact within
      · rw [turn]
        exact ((h.sent b mem).trans low).trans (Nat.le_succ _)

variable {s : AllocatorMFTDMA n nf} {v : Assign n nf} {passes : ℕ} {locals : Fin 3 → Locals nf}

/-- So does a round. -/
theorem walked_of_stages (served : cfg.Served) (knownMode : cfg.KnownMode)
    (knownLayout : cfg.KnownLayout) (opens : cfg.OpensAll u)
    (h : s.stages cfg passes locals = some v) (start : Walked cfg c u past s) :
    HasBurst u v.bdes ∨ Walked cfg c u (past ++ v.bdes) v.toAllocatorMFTDMA := by
  have asks : ∀ (a : Assign n nf) (req : ℕ), 0 < a.deficit u → 0 < a.deficit u + req :=
    fun a req more => by omega
  have both : v.Accounted cfg ∧ (HasBurst u v.bdes ∨
      Walked cfg c u (past ++ v.bdes) v.toAllocatorMFTDMA) := by
    apply (AllocatorMFTDMA.inRound_of_stages h).invariant
      (I := fun a => a.Accounted cfg ∧ (HasBurst u a.bdes ∨
        Walked cfg c u (past ++ a.bdes) a.toAllocatorMFTDMA))
    · have nothing : past ++ (s.enterCra cfg (locals 0)).bdes = past := List.append_nil past
      rw [nothing]
      refine ⟨accounted_enterCra cfg (locals 0) s, .inr ⟨?_, start.turn, start.sent, start.order⟩⟩
      show 0 < s.deficit u + s.cnstRate u
      have more := start.more
      omega
    · rintro a ⟨accounted, walked⟩ guard
      refine ⟨accounted.body served guard, ?_⟩
      by_cases got : HasBurst u a.bdes
      · exact .inl got.body
      · exact (walked.resolve_left got).body knownMode knownLayout accounted opens got guard
    · rintro a ⟨accounted, walked⟩
      refine ⟨⟨accounted.slots, accounted.sent, accounted.clear⟩, walked.imp id fun walked => ?_⟩
      exact ⟨asks a (a.reqvRate u) walked.more, walked.turn, walked.sent, walked.order⟩
    · rintro a ⟨accounted, walked⟩
      refine ⟨⟨accounted.slots, accounted.sent, accounted.clear⟩, walked.imp id fun walked => ?_⟩
      exact ⟨asks a (a.reqvVolume u) walked.more, walked.turn, walked.sent, walked.order⟩
  exact both.2

/-- A round that leaves a terminal without a burst has used up all slots. -/
theorem length_of_stages (served : cfg.Served) (knownMode : cfg.KnownMode)
    (knownLayout : cfg.KnownLayout) (opens : cfg.OpensAll u)
    (h : s.stages cfg passes locals = some v) (none : ¬ HasBurst u v.bdes)
    (more : 0 < v.deficit u) : v.bdes.length = cfg.slotCount := by
  have accounted := accounted_of_stages served h
  obtain ⟨cra, -, h⟩ := Option.bind_eq_some_iff.mp h
  obtain ⟨rbdc, -, hvbdc⟩ := Option.bind_eq_some_iff.mp h
  have full : v.freeslots = 0 := by
    obtain full | satisfied := Assign.exit_of_returns knownMode knownLayout
      (s := rbdc.enterVbdc (locals 2)) rfl ⟨passes, hvbdc⟩
    · exact full
    · by_contra slots
      exact satisfied u (feasible_of_slots accounted opens slots none more)
  have sent := accounted.sent
  omega

end round

section history

variable {cfg : Config n nf} {op : Operation n} {s t w w' : Network n nf} {c u : Fin n}
  {e : AllocatorEvent nf} {es : List (AllocatorEvent nf)} {past : List (BurstDes n)}

/-- The end of a round leaves the turn and the open requests as they are. -/
theorem finish_kept (op : Operation n) (w : Network n nf) {v : Assign n nf}
    (buf : 0 < op.maxReqBuf) (more : 0 < v.deficit u) :
    0 < (w.finish op v).al.deficit u ∧ (w.finish op v).al.curTerm = v.curTerm := by
  simp only [Network.finish, AllocatorMFTDMA.forget, AllocatorMFTDMA.cap, AllocatorMFTDMA.report]
  split_ifs <;> simp only <;> split_ifs <;> exact ⟨by omega, trivial⟩

/-- Each event without a burst for the terminal that waits keeps the order, and a round uses up
all slots. -/
theorem networkStep_walked (served : cfg.Served) (knownMode : cfg.KnownMode)
    (knownLayout : cfg.KnownLayout) (opens : cfg.OpensAll u) (buf : 0 < op.maxReqBuf)
    (h : Walked cfg c u past w.al) (none : ∀ bdes ∈ sentTbtp cfg w e, ¬ HasBurst u bdes)
    (step : networkStep cfg op w e = some w') :
    Walked cfg c u (past ++ (sentTbtp cfg w e).flatten) w'.al ∧
      ∀ bdes ∈ sentTbtp cfg w e, bdes.length = cfg.slotCount := by
  cases e with
  | rcvReq slotNum rate volume =>
      obtain rfl := Option.some.inj step
      refine ⟨?_, fun bdes mem => by cases mem⟩
      rw [sentTbtp, List.flatten_nil, List.append_nil]
      exact ⟨h.more, h.turn, h.sent, h.order⟩
  | allocation passes locals =>
      obtain ⟨v, stages, rfl⟩ := Option.map_eq_some_iff.mp step
      have tbtp : sentTbtp cfg w (.allocation passes locals) = [v.bdes] := by
        simp [sentTbtp, stages]
      rw [tbtp] at none ⊢
      have unserved := none _ (List.mem_singleton.mpr rfl)
      have walked := (walked_of_stages served knownMode knownLayout opens stages h).resolve_left
        unserved
      obtain ⟨more, turn⟩ := finish_kept op w buf walked.more
      rw [List.flatten_singleton]
      refine ⟨⟨more, turn ▸ walked.turn, turn ▸ walked.sent, walked.order⟩, ?_⟩
      exact List.forall_mem_singleton.mpr
        (length_of_stages served knownMode knownLayout opens stages unserved walked.more)

/-- A history without a burst for the terminal that waits keeps the order. -/
theorem run_walked (served : cfg.Served) (knownMode : cfg.KnownMode)
    (knownLayout : cfg.KnownLayout) (opens : cfg.OpensAll u) (buf : 0 < op.maxReqBuf)
    (reach : run (networkStep cfg op) s es = some t) (more : 0 < s.al.deficit u)
    (none : ∀ bdes ∈ tbtps cfg op s es, ¬ HasBurst u bdes) :
    Walked cfg s.al.curTerm u (tbtps cfg op s es).flatten t.al ∧
      ∀ bdes ∈ tbtps cfg op s es, bdes.length = cfg.slotCount := by
  have first : gap s.al.curTerm s.al.curTerm ≤ gap s.al.curTerm u := by
    rw [gap_self]
    exact Nat.zero_le _
  have start : Walked cfg s.al.curTerm u [] s.al :=
    ⟨more, first, List.forall_mem_nil _, .nil⟩
  apply run_outputs_along [] (I := fun (bdess : List (List (BurstDes n))) (w : Network n nf) =>
      Walked cfg s.al.curTerm u bdess.flatten w.al ∧ ∀ bdes ∈ bdess, bdes.length = cfg.slotCount)
    ⟨start, List.forall_mem_nil _⟩ (forall_outputs_iff_along.mp none) _ reach
  rintro past a e b ⟨walked, lengths⟩ none step
  obtain ⟨walked, length⟩ :=
    networkStep_walked served knownMode knownLayout opens buf walked none step
  rw [List.flatten_append]
  exact ⟨walked, List.forall_mem_append.mpr ⟨lengths, length⟩⟩

theorem length_tbtps (reach : run (networkStep cfg op) s es = some t) :
    (tbtps cfg op s es).length = es.countP AllocatorEvent.isRound := by
  induction es generalizing s with
  | nil => rfl
  | cons e es ih =>
      obtain ⟨m, here, rest⟩ := run_cons_eq_some.mp reach
      have later := ih rest
      unfold tbtps at later ⊢
      rw [outputs_cons_of_step here, List.length_append, later, List.countP_cons, Nat.add_comm]
      cases e with
      | rcvReq slotNum rate volume => rfl
      | allocation passes locals =>
          obtain ⟨v, stages, -⟩ := Option.map_eq_some_iff.mp here
          simp [sentTbtp, stages, AllocatorEvent.isRound]

/-- Bursts at places of their own before that of the terminal that waits. -/
theorem Walked.length_le {bs : List (BurstDes n)} {al : AllocatorMFTDMA n nf}
    (h : Walked cfg c u bs al) (slot : cfg.mode = slotMode) : bs.length ≤ gap c u := by
  have one : cfg.stride = 1 := if_pos slot
  have places : (bs.map fun b => gap c b.assignmentId).Nodup := by
    refine List.pairwise_map.mpr (h.order.imp fun less => ?_)
    omega
  have before : (bs.map fun b => gap c b.assignmentId) ⊆ List.range (gap c u) := by
    intro k mem
    obtain ⟨b, sent, rfl⟩ := List.mem_map.mp mem
    have place := h.sent b sent
    have turn := h.turn
    exact List.mem_range.mpr (by omega)
  have le := (List.subperm_of_subset places before).length_le
  rwa [List.length_map, List.length_range] at le

/-- While a terminal that may use every frame is owed something and gets no burst, all bursts
go to terminals between the turn and itself, in this order, and each round uses up all slots.
In SLOT_MODE each of these terminals gets one burst at most. -/
theorem turns_in_order (cfg : Config n nf) (served : cfg.Served) (knownMode : cfg.KnownMode)
    (knownLayout : cfg.KnownLayout) (u : Fin n) (opens : cfg.OpensAll u) (op : Operation n)
    (buf : 0 < op.maxReqBuf) (s t : Network n nf) (es : List (AllocatorEvent nf))
    (reach : run (networkStep cfg op) s es = some t) (more : 0 < s.al.deficit u)
    (none : ∀ bdes ∈ tbtps cfg op s es, ¬ HasBurst u bdes) :
    (∀ b ∈ (tbtps cfg op s es).flatten,
        gap s.al.curTerm b.assignmentId < gap s.al.curTerm u) ∧
      (tbtps cfg op s es).flatten.Pairwise (fun b b' =>
        gap s.al.curTerm b.assignmentId + (if cfg.mode = slotMode then 1 else 0) ≤
          gap s.al.curTerm b'.assignmentId) ∧
      ∀ bdes ∈ tbtps cfg op s es, bdes.length = cfg.slotCount := by
  obtain ⟨walked, lengths⟩ :=
    run_walked served knownMode knownLayout opens buf reach more none
  refine ⟨fun b mem => ?_, walked.order, lengths⟩
  obtain ⟨bdes, sent, here⟩ := List.mem_flatten.mp mem
  have place := (Nat.le_add_right _ _).trans (walked.sent b mem)
  refine lt_of_le_of_ne (place.trans walked.turn) fun same => none bdes sent ⟨b, here, ?_⟩
  rw [← advance_gap s.al.curTerm b.assignmentId, same, advance_gap]

/-- A network in which both terminals are owed many bursts. -/
def indebted : Network 2 1 := { attached with al := { attached.al with deficit := fun _ => 100 } }

/-- Two rounds, with a request of the other terminal in between. -/
def betweenRounds : List (AllocatorEvent 1) :=
  [.allocation 9 fun _ => ⟨.null, 0⟩, .rcvReq 1 0 5, .allocation 9 fun _ => ⟨.null, 0⟩]

/-- In CONT_MODE terminal 0 has the turn for two rounds. -/
theorem turns_in_order_indebted :
    (∀ b ∈ (tbtps fourSlots oneHub indebted betweenRounds).flatten,
        gap indebted.al.curTerm b.assignmentId < gap indebted.al.curTerm 1) ∧
      (tbtps fourSlots oneHub indebted betweenRounds).flatten.Pairwise (fun b b' =>
        gap indebted.al.curTerm b.assignmentId + (if fourSlots.mode = slotMode then 1 else 0) ≤
          gap indebted.al.curTerm b'.assignmentId) ∧
      ∀ bdes ∈ tbtps fourSlots oneHub indebted betweenRounds,
        bdes.length = fourSlots.slotCount := by
  have returned : (run (networkStep fourSlots oneHub) indebted betweenRounds).isSome = true := by
    decide +kernel
  obtain ⟨t, reach⟩ := Option.isSome_iff_exists.mp returned
  have served : fourSlots.Served := fun _ => ⟨.any, List.mem_singleton.mpr rfl, by decide⟩
  have opens : fourSlots.OpensAll 1 := fun _ =>
    ⟨.any, List.mem_singleton.mpr rfl, by decide, Subsingleton.elim _ _⟩
  have none : ∀ bdes ∈ tbtps fourSlots oneHub indebted betweenRounds, ¬ HasBurst 1 bdes := by
    unfold HasBurst
    decide +kernel
  exact turns_in_order fourSlots served (.inr rfl) (.inl rfl) 1 opens oneHub (by decide) indebted t
    _ reach (by decide) none

/-- In SLOT_MODE a terminal that waits without a burst sees fewer slots than there are
terminals go by, once a round has begun. -/
theorem slots_lt_of_waiting (served : cfg.Served) (slot : cfg.mode = slotMode)
    (knownLayout : cfg.KnownLayout) (opens : cfg.OpensAll u) (buf : 0 < op.maxReqBuf)
    (reach : run (networkStep cfg op) s es = some t) (waiting : s.Waiting u)
    (none : ∀ bdes ∈ tbtps cfg op s es, ¬ HasBurst u bdes) :
    cfg.slotCount * (es.countP AllocatorEvent.isRound - 1) < n := by
  induction es generalizing s with
  | nil => exact u.pos
  | cons e es ih =>
      obtain ⟨m, here, rest⟩ := run_cons_eq_some.mp reach
      have both : tbtps cfg op s (e :: es) = sentTbtp cfg s e ++ tbtps cfg op m es :=
        outputs_cons_of_step here
      rw [both] at none
      obtain ⟨now, later⟩ := List.forall_mem_append.mp none
      cases e with
      | rcvReq slotNum rate volume =>
          obtain rfl := Option.some.inj here
          refine ih rest ?_ later
          unfold Network.Waiting at waiting ⊢
          simp only [AllocatorMFTDMA.rcvReq]
          split_ifs <;> omega
      | allocation passes locals =>
          obtain ⟨v, stages, rfl⟩ := Option.map_eq_some_iff.mp here
          have unserved : ¬ HasBurst u v.bdes := now _ (by simp [sentTbtp, stages])
          have left : 0 < v.deficit u := by
            rw [(AllocatorMFTDMA.stages_spec stages).1 u, granted_of_none unserved]
            unfold Network.Waiting at waiting
            omega
          obtain ⟨walked, lengths⟩ := run_walked served (.inl slot) knownLayout opens buf rest
            (finish_kept op s buf left).1 later
          have short := walked.length_le slot
          rw [List.length_flatten, List.map_congr_left lengths, List.map_const', List.sum_replicate,
            length_tbtps rest, smul_eq_mul] at short
          rw [List.countP_cons_of_pos rfl, Nat.add_sub_cancel, Nat.mul_comm]
          exact short.trans_lt (gap_lt _ _)

/-- In SLOT_MODE a terminal that may use every frame and has an open request gets a burst
before the others have had a slot each, once a round has begun, whatever they ask for. -/
theorem slotMode_waits (cfg : Config n nf) (served : cfg.Served) (slot : cfg.mode = slotMode)
    (knownLayout : cfg.KnownLayout) (u : Fin n) (opens : cfg.OpensAll u) (op : Operation n)
    (buf : 0 < op.maxReqBuf) (s t : Network n nf) (es : List (AllocatorEvent nf))
    (reach : run (networkStep cfg op) s es = some t) (waiting : s.Waiting u)
    (long : n ≤ cfg.slotCount * (es.countP AllocatorEvent.isRound - 1)) :
    ∃ bdes ∈ tbtps cfg op s es, HasBurst u bdes := by
  by_contra never
  exact absurd long (not_le.mpr (slots_lt_of_waiting served slot knownLayout opens buf reach waiting
    fun bdes sent got => never ⟨bdes, sent, got⟩))

/-- Two rounds of four slots have a burst for terminal 1. -/
theorem slotMode_waits_indebted : ∃ bdes ∈ tbtps turns oneHub indebted
    [.allocation 9 fun _ => ⟨.null, 0⟩, .allocation 9 fun _ => ⟨.null, 0⟩], HasBurst 1 bdes := by
  have returned : (run (networkStep turns oneHub) indebted
      [.allocation 9 fun _ => ⟨.null, 0⟩, .allocation 9 fun _ => ⟨.null, 0⟩]).isSome = true := by
    decide +kernel
  obtain ⟨t, reach⟩ := Option.isSome_iff_exists.mp returned
  have served : turns.Served := fun _ => ⟨.any, List.mem_singleton.mpr rfl, by decide⟩
  have opens : turns.OpensAll 1 := fun _ =>
    ⟨.any, List.mem_singleton.mpr rfl, by decide, Subsingleton.elim _ _⟩
  have waiting : indebted.Waiting 1 := by
    unfold Network.Waiting
    decide
  exact slotMode_waits turns served rfl (.inl rfl) 1 opens oneHub (by decide) indebted t _ reach
    waiting (by decide)

end history

end Mftdma.Allocator
