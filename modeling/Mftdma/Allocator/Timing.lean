import Mathlib.Order.CompletePartialOrder
import Mathlib.Order.Interval.Set.Disjoint
import Mathlib.Tactic.FieldSimp
import Mftdma.Allocator.Superframe

/-!
# The cells of a terminal do not overlap in time

The mask of a terminal is a grid of `masksize` bits laid over one superframe,
and timeslot `j` of a frame is the block of `fieldsize` bits from `j * fieldsize`
on. `firstfit` and `bestfit` ask for a clear block and set it, so the blocks of
two cells held by one terminal are disjoint, whatever frames they are in. Since
a bit stands for `frame_duration_ / masksize` seconds, disjoint blocks of bits
are disjoint intervals of time.
-/

namespace Mftdma.Allocator

variable {n nf : ℕ}

/-- A call of `firstfit` or `bestfit` for a terminal. -/
structure FitCall (n nf : ℕ) where
  best : Bool
  fp : Fin nf
  tp : Fin n

/-- The double returned by a call and the store it leaves. -/
def FitCall.exec (cfg : Config n nf) (call : FitCall n nf) (s : Store n nf) : ℚ × Store n nf :=
  if call.best then bestfit cfg call.fp call.tp s else firstfit cfg call.fp call.tp s

/-- The store after a sequence of calls, successful or not. -/
def Store.serve (cfg : Config n nf) (s : Store n nf) (calls : List (FitCall n nf)) : Store n nf :=
  calls.foldl (fun s call => (call.exec cfg s).2) s

/-- Bits of the mask that a cell stands for. -/
def Config.field (cfg : Config n nf) (c : Cell nf) : Set ℕ :=
  Set.Ico (c.2.2 * cfg.fieldsize c.1) ((c.2.2 + 1) * cfg.fieldsize c.1)

/-- Time that a cell takes, in seconds from the start of the superframe. -/
def Config.interval (cfg : Config n nf) (c : Cell nf) : Set ℚ :=
  Set.Ico (cfg.slotOffset c.1 c.2.2) (cfg.slotOffset c.1 (c.2.2 + 1))

/-- Call number `k` is made for the terminal `u`, finds the cell `c` of the frame
it was asked for free, writes `u` there and returns the offset of `c`. -/
structure Gives (cfg : Config n nf) (s : Store n nf) (calls : List (FitCall n nf)) (k : ℕ)
    (u : Fin n) (c : Cell nf) : Prop where
  call : ∃ call, calls[k]? = some call ∧ call.fp = c.1 ∧ call.tp = u ∧
    (call.exec cfg (s.serve cfg (calls.take k))).1 = cfg.slotOffset c.1 c.2.2
  cell : c ∈ cfg.allCells
  free : (s.serve cfg (calls.take k)).cell c = nothingToSend
  owned : (s.serve cfg (calls.take (k + 1))).cell c = u

/-- What holds of the calls of one superframe and of the cells they hand out. -/
structure SlotsDisjoint (cfg : Config n nf) (s : Store n nf) (calls : List (FitCall n nf)) :
    Prop where
  given : ∀ k call, calls[k]? = some call →
    0 ≤ (call.exec cfg (s.serve cfg (calls.take k))).1 → ∃ c, Gives cfg s calls k call.tp c
  once : ∀ k k' u u' c, Gives cfg s calls k u c → Gives cfg s calls k' u' c → k = k' ∧ u = u'
  held : ∀ c ∈ cfg.allCells, ∀ u : Fin n,
    (s.serve cfg calls).cell c = u ↔ ∃ k, Gives cfg s calls k u c
  apart : ∀ c ∈ cfg.allCells, ∀ d ∈ cfg.allCells, c ≠ d → ∀ u : Fin n,
    (s.serve cfg calls).cell c = u → (s.serve cfg calls).cell d = u →
      Disjoint (cfg.interval c) (cfg.interval d)
  inside : ∀ c ∈ cfg.allCells, cfg.interval c ⊆ Set.Ico 0 cfg.frameDuration
  next : ∀ c ∈ cfg.allCells, ∀ d ∈ cfg.allCells,
    Disjoint (cfg.interval c) ((fun x => cfg.frameDuration + x) '' cfg.interval d)

variable {cfg : Config n nf} {s : Store n nf} {calls : List (FitCall n nf)} {call : FitCall n nf}
  {c d : Cell nf} {f : Fin nf} {u : Fin n} {i j : ℕ}

section time

/-- Offsets in steps of one bit of the mask. -/
theorem slotOffset_eq (cfg : Config n nf) (f : Fin nf) (j : ℕ) :
    cfg.slotOffset f j = (j * cfg.fieldsize f : ℕ) * (cfg.frameDuration / cfg.masksize) := by
  have slots : ((cfg.sf f).timeslots : ℚ) ≠ 0 :=
    Nat.cast_ne_zero.mpr (Nat.one_le_iff_ne_zero.mp (cfg.sf f).timeslots_pos)
  have bits : (cfg.masksize : ℚ) ≠ 0 := Nat.cast_ne_zero.mpr cfg.masksize_pos.ne'
  have grid : ((cfg.sf f).timeslots : ℚ) * cfg.fieldsize f = cfg.masksize := by
    exact_mod_cast cfg.timeslots_mul_fieldsize f
  rw [Config.slotOffset, div_eq_iff slots, Nat.cast_mul, ← grid]
  have field : (cfg.fieldsize f : ℚ) ≠ 0 := right_ne_zero_of_mul (grid ▸ bits)
  field_simp

/-- Disjoint blocks of bits are disjoint intervals of time. -/
theorem disjoint_interval (h : Disjoint (cfg.field c) (cfg.field d)) :
    Disjoint (cfg.interval c) (cfg.interval d) := by
  have bit : 0 ≤ cfg.frameDuration / cfg.masksize :=
    div_nonneg cfg.frameDuration_nonneg (Nat.cast_nonneg _)
  have mono : Monotone fun k : ℕ => (k : ℚ) * (cfg.frameDuration / cfg.masksize) :=
    fun _ _ le => mul_le_mul_of_nonneg_right (Nat.cast_le.mpr le) bit
  rw [Config.field, Config.field, Set.Ico_disjoint_Ico] at h
  simp only [Config.interval, Set.Ico_disjoint_Ico, slotOffset_eq]
  rw [← mono.map_min, ← mono.map_max]
  exact mono h

theorem interval_subset (hc : c ∈ cfg.allCells) :
    cfg.interval c ⊆ Set.Ico 0 cfg.frameDuration := by
  have slot := (Frame.mem_cells.mp (Store.mem_allCells.mp hc)).2
  apply Set.Ico_subset_Ico (cfg.slotOffset_nonneg _ _)
  have slots : (0 : ℚ) < (cfg.sf c.1).timeslots :=
    Nat.cast_pos.mpr (cfg.sf c.1).timeslots_pos
  rw [Config.slotOffset, div_le_iff₀ slots, mul_comm]
  exact mul_le_mul_of_nonneg_left (Nat.cast_le.mpr slot) cfg.frameDuration_nonneg

/-- No interval reaches into the superframe that starts one duration later. -/
theorem disjoint_next (hc : c ∈ cfg.allCells) (hd : d ∈ cfg.allCells) :
    Disjoint (cfg.interval c) ((fun x => cfg.frameDuration + x) '' cfg.interval d) := by
  rw [Set.disjoint_left]
  rintro x now ⟨y, later, rfl⟩
  have before := (interval_subset hc now).2
  have after := (interval_subset hd later).1
  linarith

end time

section calls

theorem FitCall.exec_fits (cfg : Config n nf) (call : FitCall n nf) (s : Store n nf) :
    Fits cfg call.fp call.tp s (call.exec cfg s) := by
  unfold FitCall.exec
  split
  · exact bestfit_fits cfg call.fp call.tp s
  · exact firstfit_fits cfg call.fp call.tp s

@[simp] theorem serve_snoc (calls : List (FitCall n nf)) (call : FitCall n nf) :
    s.serve cfg (calls ++ [call]) = (call.exec cfg (s.serve cfg calls)).2 := by
  simp [Store.serve]

theorem serve_append (xs ys : List (FitCall n nf)) :
    s.serve cfg (xs ++ ys) = (s.serve cfg xs).serve cfg ys :=
  List.foldl_append

theorem serve_take_succ (cfg : Config n nf) (s : Store n nf) {k : ℕ}
    (h : calls[k]? = some call) :
    s.serve cfg (calls.take (k + 1)) = (call.exec cfg (s.serve cfg (calls.take k))).2 := by
  rw [List.take_add_one, h, Option.toList_some, serve_snoc]

/-- What taking a free cell keeps holds after any sequence of calls. -/
theorem serve_invariant {I : Store n nf → Prop} (init : I s)
    (keep : ∀ a f t i j, I a → (i, j) ∈ (cfg.sf f).cells → a.avail cfg f t (i, j) = true →
      I (a.take cfg f t i j))
    (calls : List (FitCall n nf)) : I (s.serve cfg calls) := by
  apply List.foldlRecOn calls _ init
  intro a ha call _
  have fits := call.exec_fits cfg a
  generalize call.exec cfg a = result at fits ⊢
  cases fits with
  | refused full => exact ha
  | taken i j cell free => exact keep a call.fp call.tp i j ha cell free

/-- A cell that is taken keeps its owner. -/
theorem serve_kept (cfg : Config n nf) (taken : s.cell c ≠ nothingToSend)
    (calls : List (FitCall n nf)) :
    (s.serve cfg calls).cell c = s.cell c := by
  refine serve_invariant (I := fun a => a.cell c = s.cell c) rfl ?_ calls
  intro a f t i j ha _ free
  have other : c ≠ ⟨f, i, j⟩ := by
    rintro rfl
    exact taken (ha ▸ (Store.avail_iff.mp free).1)
  rw [Store.cell_take, if_neg other, ha]

/-- The masks cover the cells that are held, and the blocks of a terminal are
disjoint. -/
structure Booked (cfg : Config n nf) (s : Store n nf) : Prop where
  marked : ∀ c ∈ cfg.allCells, ∀ u : Fin n, s.cell c = u →
    ∀ b ∈ cfg.field c, (s.mask u).bit b = true
  apart : ∀ c ∈ cfg.allCells, ∀ d ∈ cfg.allCells, c ≠ d → ∀ u : Fin n, s.cell c = u →
    s.cell d = u → Disjoint (cfg.field c) (cfg.field d)

theorem cell_reset (hc : c ∈ cfg.allCells) : (s.reset cfg).cell c = nothingToSend := by
  rw [← Store.freeCells_reset cfg s] at hc
  exact (Store.mem_freeCells.mp hc).2

theorem booked_reset (cfg : Config n nf) (s : Store n nf) : Booked cfg (s.reset cfg) where
  marked c hc u owned := by
    rw [cell_reset hc] at owned
    exact absurd owned.symm (Store.natCast_ne_nothingToSend u)
  apart c hc d hd other u owned := by
    rw [cell_reset hc] at owned
    exact absurd owned.symm (Store.natCast_ne_nothingToSend u)

/-- The block of an available cell is clear of those the terminal holds. -/
theorem Booked.disjoint_of_avail (h : Booked cfg s) (hd : d ∈ cfg.allCells)
    (owned : s.cell d = u) (free : s.avail cfg f u (i, j) = true) :
    Disjoint (cfg.field ⟨f, i, j⟩) (cfg.field d) := by
  rw [Set.disjoint_left]
  intro b new old
  have clear := Mask.testmask_iff _ _ _ |>.mp (Store.avail_iff.mp free).2 b new.1 new.2
  rw [h.marked d hd u owned b old] at clear
  cases clear

theorem Booked.take (h : Booked cfg s) (free : s.avail cfg f u (i, j) = true) :
    Booked cfg (s.take cfg f u i j) := by
  have grows : ∀ v b, (s.mask v).bit b = true → ((s.take cfg f u i j).mask v).bit b = true := by
    intro v b hb
    by_cases same : v = u
    · subst same
      rw [Store.take_mask_self, Mask.bit_setmask, hb, Bool.true_or]
    · rwa [Store.take_mask_other same]
  constructor
  · intro c hc v owned b hb
    rw [Store.cell_take] at owned
    split at owned
    · next new =>
        subst new
        obtain rfl : u = v := Fin.ext (by exact_mod_cast owned)
        rw [Store.take_mask_self, Mask.bit_setmask, Bool.or_eq_true, decide_eq_true_iff]
        exact .inr hb
    · exact grows v b (h.marked c hc v owned b hb)
  · intro c hc d hd other v ownedC ownedD
    rw [Store.cell_take] at ownedC ownedD
    split at ownedC
    · next newC =>
        subst newC
        obtain rfl : u = v := Fin.ext (by exact_mod_cast ownedC)
        rw [if_neg other.symm] at ownedD
        exact h.disjoint_of_avail hd ownedD free
    · split at ownedD
      · next newD =>
          subst newD
          obtain rfl : u = v := Fin.ext (by exact_mod_cast ownedD)
          exact (h.disjoint_of_avail hc ownedC free).symm
      · exact h.apart c hc d hd other v ownedC ownedD

theorem booked_serve (cfg : Config n nf) (s : Store n nf) (calls : List (FitCall n nf)) :
    Booked cfg ((s.reset cfg).serve cfg calls) := by
  refine serve_invariant (booked_reset cfg s) ?_ calls
  intro a f t i j ha _ free
  exact ha.take free

theorem exists_gives {k : ℕ} (found : calls[k]? = some call)
    (success : 0 ≤ (call.exec cfg (s.serve cfg (calls.take k))).1) :
    ∃ c, Gives cfg s calls k call.tp c := by
  have fits := call.exec_fits cfg (s.serve cfg (calls.take k))
  have after := serve_take_succ cfg s found
  generalize hr : call.exec cfg (s.serve cfg (calls.take k)) = result at fits after success
  cases fits with
  | refused full => norm_num at success
  | taken i j cell free =>
      refine ⟨⟨call.fp, i, j⟩, ⟨call, found, rfl, rfl, by rw [hr]⟩,
        Store.mem_allCells.mpr cell, (Store.avail_iff.mp free).1, ?_⟩
      rw [after]
      exact (Store.cell_take _).trans (if_pos rfl)

/-- What a cell holds after call `k` it holds at the end. -/
theorem Gives.held {k : ℕ} (h : Gives cfg s calls k u c) : (s.serve cfg calls).cell c = u := by
  have taken : (s.serve cfg (calls.take (k + 1))).cell c ≠ nothingToSend := by
    rw [h.owned]
    exact Store.natCast_ne_nothingToSend u
  have kept := serve_kept cfg taken (calls.drop (k + 1))
  rwa [← serve_append, List.take_append_drop, h.owned] at kept

theorem Gives.not_lt {k k' : ℕ} {u' : Fin n} (h : Gives cfg s calls k u c)
    (h' : Gives cfg s calls k' u' c) : ¬ k < k' := by
  intro before
  have taken : (s.serve cfg (calls.take (k + 1))).cell c ≠ nothingToSend := by
    rw [h.owned]
    exact Store.natCast_ne_nothingToSend u
  have kept := serve_kept cfg taken ((calls.take k').drop (k + 1))
  have first : calls.take (k + 1) = (calls.take k').take (k + 1) := by
    rw [List.take_take, Nat.min_eq_left before]
  rw [← serve_append, first, List.take_append_drop, h'.free] at kept
  exact taken (first ▸ kept).symm

/-- A cell that was free and is held after `k` calls was given by one of them. -/
theorem exists_gives_of_held (free : s.cell c = nothingToSend) (hc : c ∈ cfg.allCells) (k : ℕ)
    (held : (s.serve cfg (calls.take k)).cell c = u) : ∃ k, Gives cfg s calls k u c := by
  induction k with
  | zero =>
      rw [List.take_zero] at held
      exact absurd (held.symm.trans free) (Store.natCast_ne_nothingToSend u)
  | succ k ih =>
      cases found : calls[k]? with
      | none =>
          rw [List.take_add_one, found, Option.toList_none, List.append_nil] at held
          exact ih held
      | some call =>
          have after := serve_take_succ cfg s found
          have owned := held
          have fits := call.exec_fits cfg (s.serve cfg (calls.take k))
          rw [after] at held
          generalize hr : call.exec cfg (s.serve cfg (calls.take k)) = result at fits held
          cases fits with
          | refused full => exact ih held
          | taken i j cell avail =>
              rw [Store.cell_take] at held
              split at held
              · next new =>
                  subst new
                  obtain same : call.tp = u := Fin.ext (by exact_mod_cast held)
                  exact ⟨k, ⟨call, found, rfl, same, by rw [hr]⟩, hc,
                    (Store.avail_iff.mp avail).1, owned⟩
              · exact ih held

end calls

/-- The cells handed out in a superframe have one owner each, and those of one
owner are disjoint in time. -/
theorem firstfit_bestfit_disjoint (cfg : Config n nf) (s : Store n nf)
    (calls : List (FitCall n nf)) : SlotsDisjoint cfg (s.reset cfg) calls where
  given k call found success := exists_gives found success
  once k k' u u' c h h' := by
    have same : k = k' := by
      have := h.not_lt h'
      have := h'.not_lt h
      omega
    subst same
    refine ⟨rfl, Fin.ext ?_⟩
    exact_mod_cast h.owned.symm.trans h'.owned
  held c hc u :=
    ⟨fun owned => exists_gives_of_held (cell_reset hc) hc calls.length (by rwa [List.take_length]),
      fun ⟨_, h⟩ => h.held⟩
  apart c hc d hd other u ownedC ownedD :=
    disjoint_interval ((booked_serve cfg s calls).apart c hc d hd other u ownedC ownedD)
  inside _ hc := interval_subset hc
  next _ hc _ hd := disjoint_next hc hd

end Mftdma.Allocator
