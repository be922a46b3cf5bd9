import Mftdma.Allocator.Assign
import Mftdma.Execution.Run

/-!
# Burst descriptors and slots

A superframe is a run of `pass` and `stage` events: passes of the loop of
`assign_timeslot`, and calls that open a new stage on the same TBTP with new
requests and new garbage in the two locals. `SlotBacked` says that over such a
run every descriptor got a slot of its own, and that slots and bytes add up.

The run keeps this property exactly when no pass starts in a `Stale` state. A
stale pass appends a descriptor for the terminal it picked although that
terminal has no eligible rule at all.
-/

namespace Mftdma.Allocator

open Cyclic Execution

variable {n nf : ℕ}

/-- What happens between `reset_allocator` and the end of a superframe. -/
inductive SuperframeEvent (n nf : ℕ) where
  | pass
  | stage (reqVec : Fin n → ℕ) (frame : FramePtr nf) (offset : ℚ)

/-- A pass needs the loop guard, a new stage the end of the previous loop. -/
def superframeStep (cfg : Config n nf) (s : Assign n nf) :
    SuperframeEvent n nf → Option (Assign n nf)
  | .pass => if (assignTimeslot cfg).guard s then some (s.body cfg) else none
  | .stage reqVec frame offset =>
      if (assignTimeslot cfg).guard s then none
      else some ((s.toAllocatorMFTDMA.initRequestQueues reqVec).enter s.bdes frame offset)

/-- The descriptor `e`, appended by the pass that starts in `h`, is backed by `c`. -/
structure Backs (cfg : Config n nf) (h : Assign n nf) (e : BurstDes n) (c : Cell nf) : Prop where
  cell : c ∈ cfg.allCells
  free : h.store.cell c = nothingToSend
  owned : (h.body cfg).store.cell c = e.assignmentId
  rule : ∃ r ∈ cfg.rules e.assignmentId,
    cfg.Eligible (h.deficit e.assignmentId) r ∧ r.fp = c.1
  offset : e.offset = cfg.slotOffset c.1 c.2.2
  size : e.size = (cfg.sf c.1).burstsize

/-- Slots of a run from `s` to `t`: the appended descriptors have cells of their
own, listed in the same order, which still belong to their terminals at the end;
the slot counter follows the free cells; the bytes granted fit in the cells that
were free. -/
structure SlotBacked (cfg : Config n nf) (s : Assign n nf) (es : List (SuperframeEvent n nf))
    (t : Assign n nf) : Prop where
  own : ∃ cells : List (Cell nf), cells.Nodup ∧
    t.bdes.length = s.bdes.length + cells.length ∧
    ∀ xs ys h b, es = xs ++ .pass :: ys → run (superframeStep cfg) s xs = some h →
      (h.body cfg).bdes = h.bdes ++ [b] →
      ∃ c, cells[h.bdes.length - s.bdes.length]? = some c ∧ Backs cfg h b c ∧
        t.store.cell c = b.assignmentId
  slots : s.freeslots = (s.store.freeCells cfg).card → t.freeslots = (t.store.freeCells cfg).card
  bytes : (t.bdes.map BurstDes.size).sum ≤
    (s.bdes.map BurstDes.size).sum + ∑ c ∈ s.store.freeCells cfg, cfg.cellBytes c

/-- The condition on one event of the run. -/
def NotStale (cfg : Config n nf) (s : Assign n nf) (e : SuperframeEvent n nf) : Prop :=
  e = .pass → ¬ s.Stale cfg

variable {cfg : Config n nf} {s t : Assign n nf} {e : SuperframeEvent n nf}
  {es : List (SuperframeEvent n nf)}

/-- What one event does to slots and descriptors when it is not stale. -/
inductive SlotEffect (cfg : Config n nf) (s t : Assign n nf) : Prop
  | none (store : t.store = s.store) (slots : t.freeslots = s.freeslots) (bdes : t.bdes = s.bdes)
  | one (b : BurstDes n) (c : Cell nf) (backs : Backs cfg s b c) (body : t = s.body cfg)
      (store : ∀ d, t.store.cell d = if d = c then (b.assignmentId : ℤ) else s.store.cell d)
      (slots : t.freeslots + 1 = s.freeslots) (bdes : t.bdes = s.bdes ++ [b])
      (left : t.store.freeCells cfg = (s.store.freeCells cfg).erase c)

theorem superframeStep_effect (step : superframeStep cfg s e = some t)
    (fresh : NotStale cfg s e) : SlotEffect cfg s t := by
  cases e with
  | stage reqVec frame offset =>
      simp only [superframeStep] at step
      split at step
      · cases step
      · cases step
        exact .none rfl rfl rfl
  | pass =>
      simp only [superframeStep] at step
      split at step
      · next guard =>
          cases step
          have slots := (guard_iff.mp guard).1
          have pass := s.body_pass cfg
          generalize hb : s.body cfg = t at pass
          cases pass with
          | exhausted out => exact .none rfl rfl rfl
          | refused offset some full => exact .none rfl rfl rfl
          | stale stale => exact absurd stale (fresh rfl)
          | granted r i j some mem eligible cell free =>
              refine .one ⟨s.pick.2, cfg.slotOffset r.fp j, (cfg.sf r.fp).burstsize⟩ ⟨r.fp, i, j⟩
                ⟨Store.mem_allCells.mpr cell, (Store.avail_iff.mp free).1, ?_,
                  ⟨r, mem, eligible, rfl⟩, rfl, rfl⟩ hb.symm (fun d => Store.cell_take d)
                (Nat.succ_pred_eq_of_ne_zero slots) rfl Store.freeCells_take
              rw [hb]
              exact (Store.cell_take _).trans (if_pos rfl)
      · cases step

theorem superframeStep_pass (step : superframeStep cfg s .pass = some t) : t = s.body cfg := by
  simp only [superframeStep] at step
  split at step
  · exact (Option.some.inj step).symm
  · cases step

/-- A cell that was taken keeps its owner to the end of the run. -/
theorem cell_kept {c : Cell nf} (fresh : Along (superframeStep cfg) (NotStale cfg) s es)
    (reach : run (superframeStep cfg) s es = some t) (taken : s.store.cell c ≠ nothingToSend) :
    t.store.cell c = s.store.cell c := by
  refine run_invariant_along (I := fun a => a.store.cell c = s.store.cell c) rfl fresh ?_ reach
  intro a e b ha allowed step
  cases superframeStep_effect step allowed with
  | none store _ _ => rw [store, ha]
  | one d c' backs _ store =>
      have other : c ≠ c' := by
        rintro rfl
        exact taken (ha ▸ backs.free)
      rw [store, if_neg other, ha]

/-- The cells of the descriptors that a run appends, all of them free at the start. -/
private structure CellsOf (cfg : Config n nf) (s t : Assign n nf)
    (es : List (SuperframeEvent n nf)) (cells : List (Cell nf)) : Prop where
  nodup : cells.Nodup
  free : ∀ c ∈ cells, s.store.cell c = nothingToSend
  length : t.bdes.length = s.bdes.length + cells.length
  made : ∀ xs ys h b, es = xs ++ .pass :: ys → run (superframeStep cfg) s xs = some h →
    (h.body cfg).bdes = h.bdes ++ [b] → s.bdes.length ≤ h.bdes.length ∧
      ∃ c, cells[h.bdes.length - s.bdes.length]? = some c ∧ Backs cfg h b c ∧
        t.store.cell c = b.assignmentId

/-- A first event that appends nothing. -/
private theorem CellsOf.none {m : Assign n nf} {cells : List (Cell nf)}
    (rest : CellsOf cfg m t es cells) (step : superframeStep cfg s e = some m)
    (store : m.store = s.store) (bdes : m.bdes = s.bdes) : CellsOf cfg s t (e :: es) cells where
  nodup := rest.nodup
  free := store ▸ rest.free
  length := bdes ▸ rest.length
  made xs ys h b split before made := by
    rw [← bdes]
    cases xs with
    | nil =>
        obtain ⟨rfl, rfl⟩ := List.cons.inj split
        obtain rfl := Option.some.inj before
        rw [← superframeStep_pass step, bdes] at made
        simp at made
    | cons x xs =>
        obtain ⟨rfl, rfl⟩ := List.cons.inj split
        exact rest.made xs ys h b rfl (run_of_run_cons step before) made

/-- A first pass that appends the descriptor `b` for the free cell `c`. -/
private theorem CellsOf.one {m : Assign n nf} {cells : List (Cell nf)} {b : BurstDes n}
    {c : Cell nf} (rest : CellsOf cfg m t es cells) (step : superframeStep cfg s e = some m)
    (backs : Backs cfg s b c) (body : m = s.body cfg)
    (store : ∀ d, m.store.cell d = if d = c then (b.assignmentId : ℤ) else s.store.cell d)
    (bdes : m.bdes = s.bdes ++ [b]) (kept : t.store.cell c = m.store.cell c) :
    CellsOf cfg s t (e :: es) (c :: cells) := by
  have owned : m.store.cell c = b.assignmentId := (store c).trans (if_pos rfl)
  have new : c ∉ cells := by
    intro mem
    have free := rest.free c mem
    rw [owned] at free
    exact Store.natCast_ne_nothingToSend _ free
  refine ⟨List.nodup_cons.mpr ⟨new, rest.nodup⟩, ?_, ?_, ?_⟩
  · intro d hd
    obtain rfl | hd := List.mem_cons.mp hd
    · exact backs.free
    · have other : d ≠ c := fun same => new (same ▸ hd)
      have free := rest.free d hd
      rwa [store, if_neg other] at free
  · rw [rest.length, bdes, List.length_append, List.length_cons, List.length_cons,
      List.length_nil]
    omega
  · intro xs ys h b' split before made
    cases xs with
    | nil =>
        obtain ⟨rfl, rfl⟩ := List.cons.inj split
        obtain rfl := Option.some.inj before
        rw [← body, bdes] at made
        obtain rfl := List.singleton_injective (List.append_cancel_left made)
        exact ⟨le_rfl, c, by simp, backs, kept.trans owned⟩
    | cons x xs =>
        obtain ⟨rfl, rfl⟩ := List.cons.inj split
        obtain ⟨grown, c', found, backed⟩ :=
          rest.made xs ys h b' rfl (run_of_run_cons step before) made
        rw [bdes, List.length_append, List.length_singleton] at grown found
        refine ⟨by omega, c', ?_, backed⟩
        have index : h.bdes.length - s.bdes.length =
            h.bdes.length - (s.bdes.length + 1) + 1 := by omega
        rw [index, List.getElem?_cons_succ, found]

private theorem exists_cells (fresh : Along (superframeStep cfg) (NotStale cfg) s es)
    (reach : run (superframeStep cfg) s es = some t) : ∃ cells, CellsOf cfg s t es cells := by
  induction es generalizing s with
  | nil =>
      obtain rfl := Option.some.inj reach
      exact ⟨[], by simp, by simp, rfl, by simp⟩
  | cons e es ih =>
      obtain ⟨m, step, rest⟩ := run_cons_eq_some.mp reach
      obtain ⟨cells, made⟩ := ih (fresh.2 m step) rest
      cases superframeStep_effect step fresh.1 with
      | none store slots bdes => exact ⟨cells, made.none step store bdes⟩
      | one b c backs body store slots bdes left =>
          have taken : m.store.cell c ≠ nothingToSend := by
            rw [store, if_pos rfl]
            exact Store.natCast_ne_nothingToSend _
          exact ⟨c :: cells, made.one step backs body store bdes
            (cell_kept (fresh.2 m step) rest taken)⟩

/-- The slot counter follows the free cells. -/
private theorem freeslots_eq_card (fresh : Along (superframeStep cfg) (NotStale cfg) s es)
    (reach : run (superframeStep cfg) s es = some t)
    (start : s.freeslots = (s.store.freeCells cfg).card) :
    t.freeslots = (t.store.freeCells cfg).card := by
  refine run_invariant_along
    (I := fun a : Assign n nf => a.freeslots = (a.store.freeCells cfg).card) start fresh ?_ reach
  intro a e b ha allowed step
  cases superframeStep_effect step allowed with
  | none store slots _ => rw [store, slots, ha]
  | one d c backs _ _ slots _ left =>
      have mem : c ∈ a.store.freeCells cfg := Store.mem_freeCells.mpr ⟨backs.cell, backs.free⟩
      rw [left, Finset.card_erase_of_mem mem]
      omega

/-- Bytes granted and bytes still free add up to a constant. -/
private theorem bytes_conserved (fresh : Along (superframeStep cfg) (NotStale cfg) s es)
    (reach : run (superframeStep cfg) s es = some t) :
    (t.bdes.map BurstDes.size).sum + ∑ c ∈ t.store.freeCells cfg, cfg.cellBytes c =
      (s.bdes.map BurstDes.size).sum + ∑ c ∈ s.store.freeCells cfg, cfg.cellBytes c := by
  refine run_invariant_along (I := fun a : Assign n nf =>
    (a.bdes.map BurstDes.size).sum + ∑ c ∈ a.store.freeCells cfg, cfg.cellBytes c = _)
    rfl fresh ?_ reach
  intro a e b ha allowed step
  cases superframeStep_effect step allowed with
  | none store _ bdes => rw [store, bdes, ha]
  | one d c backs _ _ _ bdes left =>
      have mem : c ∈ a.store.freeCells cfg := Store.mem_freeCells.mpr ⟨backs.cell, backs.free⟩
      have split := Finset.add_sum_erase _ cfg.cellBytes mem
      have size : d.size = cfg.cellBytes c := backs.size
      rw [left, bdes, List.map_append, List.sum_append, ← ha, ← split, List.map_singleton,
        List.sum_singleton, size]
      ring

/-- A stale pass leaves its descriptor without a slot. -/
private theorem not_slotBacked_of_stale (xs ys : List (SuperframeEvent n nf)) {h : Assign n nf}
    (split : es = xs ++ .pass :: ys) (before : run (superframeStep cfg) s xs = some h)
    (stale : h.Stale cfg) : ¬ SlotBacked cfg s es t := by
  intro backed
  obtain ⟨cells, -, -, made⟩ := backed.own
  obtain ⟨c, -, backs, -⟩ := made xs ys h _ split before (by rw [h.body_of_stale stale]; rfl)
  obtain ⟨r, mem, eligible, -⟩ := backs.rule
  exact stale.2.2 r mem eligible

/-- Every descriptor of a superframe is backed by a slot of its own exactly when
no pass of the superframe starts stale. -/
theorem slotBacked_iff (cfg : Config n nf) (s t : Assign n nf)
    (es : List (SuperframeEvent n nf)) (reach : run (superframeStep cfg) s es = some t) :
    SlotBacked cfg s es t ↔ Along (superframeStep cfg) (NotStale cfg) s es := by
  constructor
  · intro backed
    rw [along_iff_forall_split]
    rintro xs e ys h split before rfl stale
    exact not_slotBacked_of_stale xs ys split before stale backed
  · intro fresh
    obtain ⟨cells, nodup, -, length, made⟩ := exists_cells fresh reach
    refine ⟨⟨cells, nodup, length, fun xs ys h b split before made' =>
      (made xs ys h b split before made').2⟩, freeslots_eq_card fresh reach, ?_⟩
    have total := bytes_conserved fresh reach
    have rest : 0 ≤ ∑ c ∈ t.store.freeCells cfg, cfg.cellBytes c :=
      Finset.sum_nonneg fun c _ => Int.natCast_nonneg _
    omega

/-- One carrier of two timeslots; terminal 1 may use it for small requests only. -/
def smallOnly : Config 2 1 := .oneFrame .oneByTwo ![[.any], [.small]] slotMode firstFit

/-- Start of a superframe in which both terminals ask for one burst. -/
def bothAsk : Assign 2 1 where
  store := { frame := fun _ _ _ => nothingToSend, mask := fun _ _ => 0 }
  deficit _ := 10
  a _ := 0
  freeslots := 2
  leftToCheck := 2
  curTerm := ⟨0, Nat.two_pos⟩
  cnstRate _ := 0
  reqvRate _ := 10
  reqvVolume _ := 0
  utilization := 0
  load := 20
  bdes := []
  frame := .null
  offset := 0

/-- The first two passes of that superframe. -/
private theorem bothAsk_passes :
    run (superframeStep smallOnly) bothAsk [.pass] = some (bothAsk.body smallOnly) ∧
      run (superframeStep smallOnly) bothAsk [.pass, .pass] =
        some ((bothAsk.body smallOnly).body smallOnly) := by
  have first : (assignTimeslot smallOnly).guard bothAsk = true := rfl
  have second : (assignTimeslot smallOnly).guard (bothAsk.body smallOnly) = true := by
    decide +kernel
  simp [superframeStep, first, second]

/-- The first pass starts with `frame` NULL and is backed. -/
theorem slotBacked_iff_bothAsk :
    SlotBacked smallOnly bothAsk [.pass] (bothAsk.body smallOnly) ↔
      Along (superframeStep smallOnly) (NotStale smallOnly) bothAsk [.pass] :=
  slotBacked_iff smallOnly bothAsk _ [.pass] bothAsk_passes.1

/-- The second pass picks terminal 1, skips its only rule, and hands it the slot
that terminal 0 got. -/
theorem bothAsk_not_backed :
    ∃ t, run (superframeStep smallOnly) bothAsk [.pass, .pass] = some t ∧
      t.bdes = [⟨0, 0, 10⟩, ⟨1, 0, 10⟩] ∧
      ¬ SlotBacked smallOnly bothAsk [.pass, .pass] t := by
  have stale : (bothAsk.body smallOnly).Stale smallOnly := by decide +kernel
  refine ⟨_, bothAsk_passes.2, by decide +kernel, ?_⟩
  exact not_slotBacked_of_stale [.pass] [] rfl bothAsk_passes.1 stale

end Mftdma.Allocator
