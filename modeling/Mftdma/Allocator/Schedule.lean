import Mftdma.Allocator.Rounds
import Mftdma.Allocator.Timing

/-!
# The schedule of a whole history

`allocation` runs once every `frame_duration_`. The descriptors of its TBTP become bursts
on the MACs of the terminals, each of them at its offset from the time of the round.

`LaidOut` places the descriptors of one TBTP on cells of the superframe. With the rounds
one duration apart, no two bursts of a terminal and no two bursts on a carrier are ever
on the air together: `history_collision_free`. This needs a rule list for every terminal
that serves requests of any size, whatever the locals of `assign_timeslot` contain, and a
superframe of at most `MAX_SLOTS` slots, so that each TBTP fits into its packet.
-/

namespace Mftdma.Allocator

open Execution

variable {n nf : ℕ}

/-- Every terminal has a rule that is not for small requests only. -/
def Config.Served (cfg : Config n nf) : Prop := ∀ t, ∃ r ∈ cfg.rules t, r.rule ≠ 1

/-- The descriptor is for this cell, which is in a frame that a rule of its terminal names. -/
structure Names (cfg : Config n nf) (b : BurstDes n) (c : Cell nf) : Prop where
  cell : c ∈ cfg.allCells
  rule : ∃ r ∈ cfg.rules b.assignmentId, r.fp = c.1
  offset : b.offset = cfg.slotOffset c.1 c.2.2
  size : b.size = (cfg.sf c.1).burstsize

/-- The cells of the descriptors written so far, and what the store says of them. -/
structure Laid (cfg : Config n nf) (a : Assign n nf) (cells : List (Cell nf)) : Prop where
  names : List.Forall₂ (fun b c => Names cfg b c ∧ a.store.cell c = b.assignmentId) a.bdes cells
  nodup : cells.Nodup
  booked : Booked cfg a.store

/-- A TBTP on cells of its own, which for one terminal are disjoint blocks of its mask. -/
structure LaidOut (cfg : Config n nf) (bdes : List (BurstDes n)) (cells : List (Cell nf)) :
    Prop where
  names : List.Forall₂ (Names cfg) bdes cells
  nodup : cells.Nodup
  apart : ∀ (m m' : ℕ) (b b' : BurstDes n) (c c' : Cell nf), m ≠ m' → bdes[m]? = some b →
    bdes[m']? = some b' → cells[m]? = some c → cells[m']? = some c' →
      b.assignmentId = b'.assignmentId → Disjoint (cfg.field c) (cfg.field c')

/-- The TBTP that an event makes the allocator send. -/
def sentTbtp (cfg : Config n nf) (w : Network n nf) : AllocatorEvent nf → List (List (BurstDes n))
  | .rcvReq .. => []
  | .allocation passes locals => (w.al.stages cfg passes locals).elim [] fun v => [v.bdes]

/-- The TBTPs of a history, one for each round. -/
def tbtps (cfg : Config n nf) (op : Operation n) (s : Network n nf)
    (es : List (AllocatorEvent nf)) : List (List (BurstDes n)) :=
  outputs (networkStep cfg op) (sentTbtp cfg) s es

/-- The time that a cell takes in the superframe of round `k`. -/
def Config.during (cfg : Config n nf) (k : ℕ) (c : Cell nf) : Set ℚ :=
  (fun x => k * cfg.frameDuration + x) '' cfg.interval c

/-- Cells in one carrier of one frame. -/
def SameCarrier (c d : Cell nf) : Prop := c.1 = d.1 ∧ c.2.1 = d.2.1

/-- Descriptor `m` of the TBTP of round `k` is `b`, and its cell is `c`. -/
def Scheduled (bdess : List (List (BurstDes n))) (cells : ℕ → List (Cell nf)) (k m : ℕ)
    (b : BurstDes n) (c : Cell nf) : Prop :=
  ∃ bdes, bdess[k]? = some bdes ∧ bdes[m]? = some b ∧ (cells k)[m]? = some c

/-- What holds of all the bursts of a history together. Those of one TBTP fit into its packet
and are on cells of their own, in frames that a rule of the terminal names, and each becomes
one burst of its terminal; no two that share a terminal or a carrier share any time. -/
structure CollisionFree (cfg : Config n nf) (op : Operation n) (s t : Network n nf)
    (bdess : List (List (BurstDes n))) (cells : ℕ → List (Cell nf)) : Prop where
  packet : ∀ bdes ∈ bdess, bdes.length ≤ maxSlots
  placed : ∀ k bdes, bdess[k]? = some bdes →
    List.Forall₂ (Names cfg) bdes (cells k) ∧ (cells k).Nodup
  bursts : ∀ i, t.sched i = s.sched i ++ bdess.flatMap (btpDecoding i (op.slotPacketLen i))
  terminal : ∀ k m b c k' m' b' c', Scheduled bdess cells k m b c →
    Scheduled bdess cells k' m' b' c' → (k, m) ≠ (k', m') → b.assignmentId = b'.assignmentId →
      Disjoint (cfg.during k c) (cfg.during k' c')
  carrier : ∀ k m b c k' m' b' c', Scheduled bdess cells k m b c →
    Scheduled bdess cells k' m' b' c' → (k, m) ≠ (k', m') → SameCarrier c c' →
      Disjoint (cfg.during k c) (cfg.during k' c')

variable {cfg : Config n nf} {a : Assign n nf} {cells : List (Cell nf)} {c d : Cell nf}
  {k k' m m' : ℕ}  {b b' : BurstDes n} {bdes : List (BurstDes n)} {bdess : List (List (BurstDes n))}

section round

/-- A terminal that may always ask leaves no pass without a search. -/
theorem Config.Served.not_stale (h : cfg.Served) (a : Assign n nf) : ¬ a.Stale cfg := by
  rintro ⟨-, -, none⟩
  obtain ⟨r, mem, large⟩ := h a.pick.2
  exact large (cfg.not_eligible_iff.mp (none r mem)).1

/-- A pass puts its descriptor behind the others, on a cell that was free. -/
theorem Laid.body (h : Laid cfg a cells) (served : cfg.Served) :
    ∃ cells', Laid cfg (a.body cfg) cells' := by
  have pass := a.body_pass cfg
  generalize a.body cfg = b at pass
  cases pass with
  | exhausted out => exact ⟨cells, h.names, h.nodup, h.booked⟩
  | stale stale => exact absurd stale (served.not_stale a)
  | refused offset some full => exact ⟨cells, h.names, h.nodup, h.booked⟩
  | granted r i j some mem eligible cell free =>
      have empty : a.store.cell ⟨r.fp, i, j⟩ = nothingToSend := (Store.avail_iff.mp free).1
      have other : ∀ b c, Names cfg b c ∧ a.store.cell c = b.assignmentId → c ≠ ⟨r.fp, i, j⟩ := by
        rintro b c ⟨-, owned⟩ rfl
        exact Store.natCast_ne_nothingToSend _ (owned.symm.trans empty)
      refine ⟨cells ++ [⟨r.fp, i, j⟩], ?_, ?_, h.booked.take free⟩
      · refine List.rel_append (h.names.imp fun b c old => ?_) (.cons ?_ .nil)
        · exact ⟨old.1, by rw [← old.2]; exact (Store.cell_take c).trans (if_neg (other b c old))⟩
        · exact ⟨⟨Store.mem_allCells.mpr cell, ⟨r, mem, rfl⟩, rfl, rfl⟩,
            (Store.cell_take _).trans (if_pos rfl)⟩
      · refine List.nodup_append.mpr ⟨h.nodup, by simp, fun c hc d hd => ?_⟩
        obtain rfl := List.mem_singleton.mp hd
        obtain ⟨m, inside, rfl⟩ := List.getElem_of_mem hc
        have same := h.names.length_eq
        exact other _ _ (h.names.get (by omega) inside)

/-- A loop starts over on the store and the descriptors that it is given. -/
theorem Laid.congr {a' : Assign n nf} (h : Laid cfg a cells) (bdes : a'.bdes = a.bdes)
    (store : a'.store = a.store) : Laid cfg a' cells where
  names := by
    rw [bdes, store]
    exact h.names
  nodup := h.nodup
  booked := store ▸ h.booked

theorem forall₂_at {α β : Type*} {R : α → β → Prop} {xs : List α} {ys : List β} {x : α} {y : β}
    (h : List.Forall₂ R xs ys) (hx : xs[m]? = some x) (hy : ys[m]? = some y) : R x y := by
  obtain ⟨inside, rfl⟩ := List.getElem?_eq_some_iff.mp hx
  obtain ⟨inside', rfl⟩ := List.getElem?_eq_some_iff.mp hy
  exact h.get inside inside'

theorem Laid.laidOut (h : Laid cfg a cells) : LaidOut cfg a.bdes cells where
  names := h.names.imp fun _ _ => And.left
  nodup := h.nodup
  apart m m' b b' c c' other hb hb' hc hc' same := by
    obtain ⟨cell, owned⟩ := forall₂_at h.names hb hc
    obtain ⟨cell', owned'⟩ := forall₂_at h.names hb' hc'
    have different : c ≠ c' := by
      rintro rfl
      obtain ⟨inside, -⟩ := List.getElem?_eq_some_iff.mp hc
      exact other ((List.getElem?_inj inside h.nodup).mp (hc.trans hc'.symm))
    exact h.booked.apart c cell.cell c' cell'.cell different _ owned (same ▸ owned')

/-- A TBTP has no more descriptors than the superframe has slots. -/
theorem LaidOut.length_le (h : LaidOut cfg bdes cells) : bdes.length ≤ cfg.slotCount := by
  have inside : cells.toFinset ⊆ cfg.allCells := by
    intro c mem
    obtain ⟨m, short, rfl⟩ := List.getElem_of_mem (List.mem_toFinset.mp mem)
    have same := h.names.length_eq
    exact (h.names.get (by omega) short).cell
  calc bdes.length = cells.length := h.names.length_eq
    _ = cells.toFinset.card := (List.toFinset_card_of_nodup h.nodup).symm
    _ ≤ cfg.allCells.card := Finset.card_le_card inside
    _ = cfg.slotCount := Store.card_allCells cfg

/-- The TBTP of every round is laid out. -/
theorem laidOut_of_stages {s : AllocatorMFTDMA n nf} {passes : ℕ} {locals : Fin 3 → Locals nf}
    {v : Assign n nf} (served : cfg.Served) (h : s.stages cfg passes locals = some v) :
    ∃ cells, LaidOut cfg v.bdes cells := by
  have laid : ∃ cells, Laid cfg v cells := by
    apply (AllocatorMFTDMA.inRound_of_stages h).invariant (I := fun a => ∃ cells, Laid cfg a cells)
    · exact ⟨[], .nil, List.nodup_nil, booked_reset cfg s.store⟩
    · rintro a ⟨cells, ha⟩ -
      exact ha.body served
    · exact fun a ⟨cells, ha⟩ => ⟨cells, ha.congr rfl rfl⟩
    · exact fun a ⟨cells, ha⟩ => ⟨cells, ha.congr rfl rfl⟩
  obtain ⟨cells, laid⟩ := laid
  exact ⟨cells, laid.laidOut⟩

end round

section time

/-- Two timeslots of a carrier are disjoint blocks of any mask. -/
theorem SameCarrier.disjoint_field (h : SameCarrier c d) (other : c ≠ d) :
    Disjoint (cfg.field c) (cfg.field d) := by
  obtain ⟨f, i, j⟩ := c
  obtain ⟨g, i', j'⟩ := d
  obtain ⟨rfl, rfl⟩ : f = g ∧ i = i' := h
  have slots : j ≠ j' := fun same => other (by rw [same])
  simp only [Config.field, Set.Ico_disjoint_Ico]
  obtain before | after := Nat.lt_or_gt_of_ne slots
  · exact (min_le_left _ _).trans (le_max_of_le_right (Nat.mul_le_mul_right _ before))
  · exact (min_le_right _ _).trans (le_max_of_le_left (Nat.mul_le_mul_right _ after))

theorem disjoint_during (h : Disjoint (cfg.field c) (cfg.field d)) (k : ℕ) :
    Disjoint (cfg.during k c) (cfg.during k d) :=
  (Set.disjoint_image_iff (add_right_injective _)).mpr (disjoint_interval h)

/-- A superframe is over when a later one begins. -/
theorem disjoint_during_of_lt (hc : c ∈ cfg.allCells) (hd : d ∈ cfg.allCells) (later : k < k') :
    Disjoint (cfg.during k c) (cfg.during k' d) := by
  rw [Set.disjoint_left]
  rintro _ ⟨x, now, rfl⟩ ⟨y, next, same⟩
  have before := (interval_subset hc now).2
  have after := (interval_subset hd next).1
  have rounds : ((k : ℚ) + 1) * cfg.frameDuration ≤ k' * cfg.frameDuration :=
    mul_le_mul_of_nonneg_right (by exact_mod_cast later) cfg.frameDuration_nonneg
  simp only at same
  linarith

theorem disjoint_during_of_ne (hc : c ∈ cfg.allCells) (hd : d ∈ cfg.allCells) (other : k ≠ k') :
    Disjoint (cfg.during k c) (cfg.during k' d) := by
  obtain later | earlier := Nat.lt_or_gt_of_ne other
  · exact disjoint_during_of_lt hc hd later
  · exact (disjoint_during_of_lt hd hc earlier).symm

end time

section history

variable {op : Operation n} {s t : Network n nf} {es : List (AllocatorEvent nf)}

theorem laidOut_of_mem_tbtps (served : cfg.Served) (h : bdes ∈ tbtps cfg op s es) :
    ∃ cells, LaidOut cfg bdes cells := by
  have all : Along (networkStep cfg op)
      (fun w e => ∀ bdes ∈ sentTbtp cfg w e, ∃ cells, LaidOut cfg bdes cells) s es := by
    apply along_of_forall
    intro e _ w bdes sent
    cases e with
    | rcvReq slotNum rate volume => cases sent
    | allocation passes locals =>
        cases stages : w.al.stages cfg passes locals with
        | none => simp [sentTbtp, stages] at sent
        | some v =>
            obtain rfl : bdes = v.bdes := by simpa [sentTbtp, stages] using sent
            exact laidOut_of_stages served stages
  exact forall_outputs_iff_along.mpr all bdes h

/-- The bursts on a MAC are those of the TBTPs that were sent. -/
theorem sched_eq (reach : run (networkStep cfg op) s es = some t) (i : Fin n) :
    t.sched i =
      s.sched i ++ (tbtps cfg op s es).flatMap (btpDecoding i (op.slotPacketLen i)) := by
  have any : Along (networkStep cfg op) (fun _ _ => True) s es := along_of_forall fun _ _ _ => trivial
  refine run_outputs_along [] (I := fun bdess w => w.sched i =
    s.sched i ++ bdess.flatMap (btpDecoding i (op.slotPacketLen i))) (by simp) any ?_ reach
  rintro past a e b recorded - step
  cases e with
  | rcvReq slotNum rate volume =>
      cases step
      simpa [sentTbtp] using recorded
  | allocation passes locals =>
      obtain ⟨v, stages, rfl⟩ := Option.map_eq_some_iff.mp step
      simp [sentTbtp, stages, Network.finish, recorded]

/-- Descriptors in different places are apart if their cells are, once in one round. -/
theorem disjoint_of_scheduled {cells : ℕ → List (Cell nf)} {c' : Cell nf}
    (laid : ∀ k bdes, bdess[k]? = some bdes → LaidOut cfg bdes (cells k))
    (h : Scheduled bdess cells k m b c) (h' : Scheduled bdess cells k' m' b' c')
    (other : (k, m) ≠ (k', m'))
    (round : ∀ bdes, LaidOut cfg bdes (cells k) → m ≠ m' → bdes[m]? = some b →
      bdes[m']? = some b' → (cells k)[m]? = some c → (cells k)[m']? = some c' →
        Disjoint (cfg.field c) (cfg.field c')) :
    Disjoint (cfg.during k c) (cfg.during k' c') := by
  obtain ⟨bdes, tbtp, hb, hc⟩ := h
  obtain ⟨bdes', tbtp', hb', hc'⟩ := h'
  by_cases same : k = k'
  · subst same
    obtain rfl := Option.some.inj (tbtp.symm.trans tbtp')
    have places : m ≠ m' := fun eq => other (by rw [eq])
    exact disjoint_during (round bdes (laid k bdes tbtp) places hb hb' hc hc') k
  · have cell := (forall₂_at (laid k bdes tbtp).names hb hc).cell
    have cell' := (forall₂_at (laid k' bdes' tbtp').names hb' hc').cell
    exact disjoint_during_of_ne cell cell' same

/-- Whatever is asked for and whatever the locals contain, no two bursts of a history
collide: those of one terminal and those on one carrier are never on the air together. -/
theorem history_collision_free (cfg : Config n nf) (served : cfg.Served)
    (room : cfg.slotCount ≤ maxSlots) (op : Operation n) (s t : Network n nf)
    (es : List (AllocatorEvent nf)) (reach : run (networkStep cfg op) s es = some t) :
    ∃ cells, CollisionFree cfg op s t (tbtps cfg op s es) cells := by
  have each : ∀ k : ℕ, ∃ cells : List (Cell nf), ∀ bdes,
      (tbtps cfg op s es)[k]? = some bdes → LaidOut cfg bdes cells := by
    intro k
    cases found : (tbtps cfg op s es)[k]? with
    | none => exact ⟨[], fun bdes h => by cases h⟩
    | some bdes =>
        obtain ⟨cells, laid⟩ := laidOut_of_mem_tbtps served (List.mem_of_getElem? found)
        refine ⟨cells, fun bdes' h => ?_⟩
        obtain rfl := Option.some.inj h
        exact laid
  choose cells laid using each
  refine ⟨cells, ?_, ?_, sched_eq reach, ?_, ?_⟩
  · intro bdes sent
    obtain ⟨cells, laid⟩ := laidOut_of_mem_tbtps served sent
    exact laid.length_le.trans room
  · exact fun k bdes sent => ⟨(laid k bdes sent).names, (laid k bdes sent).nodup⟩
  · intro k m b c k' m' b' c' h h' other same
    refine disjoint_of_scheduled laid h h' other fun bdes fits places hb hb' hc hc' => ?_
    exact fits.apart m m' b b' c c' places hb hb' hc hc' same
  · intro k m b c k' m' b' c' h h' other same
    refine disjoint_of_scheduled laid h h' other fun bdes fits places hb hb' hc hc' => ?_
    refine same.disjoint_field fun eq => places ?_
    obtain ⟨inside, -⟩ := List.getElem?_eq_some_iff.mp hc
    exact (List.getElem?_inj inside fits.nodup).mp (hc.trans (eq ▸ hc'.symm))

/-- Two rounds of two terminals on one carrier. -/
theorem history_collision_free_attached : ∃ t, run (networkStep fourSlots oneHub) attached
      [.rcvReq 1 0 25, .allocation 9 fun _ => ⟨.null, 0⟩, .rcvReq 1 0 5, .allocation 9 fun _ =>
        ⟨.null, 0⟩] = some t ∧
    ∃ cells, CollisionFree fourSlots oneHub attached t (tbtps fourSlots oneHub attached
      [.rcvReq 1 0 25, .allocation 9 fun _ => ⟨.null, 0⟩, .rcvReq 1 0 5, .allocation 9 fun _ =>
        ⟨.null, 0⟩]) cells := by
  have returned : (run (networkStep fourSlots oneHub) attached
      [.rcvReq 1 0 25, .allocation 9 fun _ => ⟨.null, 0⟩, .rcvReq 1 0 5, .allocation 9 fun _ =>
        ⟨.null, 0⟩]).isSome = true := by
    decide +kernel
  obtain ⟨t, reach⟩ := Option.isSome_iff_exists.mp returned
  have served : fourSlots.Served := fun _ => ⟨.any, List.mem_singleton.mpr rfl, by decide⟩
  exact ⟨t, reach, history_collision_free fourSlots served (by decide) oneHub attached t _ reach⟩

end history

end Mftdma.Allocator
