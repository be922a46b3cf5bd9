import Mathlib.Algebra.BigOperators.Fin
import Mathlib.Algebra.Order.BigOperators.Ring.Finset
import Mathlib.Algebra.Order.Field.Basic
import Mathlib.Data.Rat.Cast.Order
import Mathlib.Tactic.Positivity
import Mftdma.Allocator.Mask

/-!
# Superframe, rules and the two layouts

A superframe is a list of frames, each a grid of carriers and timeslots whose
cells hold either `NOTHING_TO_SEND` or the number of the terminal that owns the
burst. `firstfit` and `bestfit` look in one frame for a cell that is free and
whose time field is clear in the mask of the terminal, and take it.

`Frame` carries the limits that `new-frame` checks, and `Config` the ones that
hold of an accepted superframe, so no lemma has to assume them again. Times are
exact rationals.
-/

namespace Mftdma.Allocator

/-- Value of a cell that belongs to nobody. -/
def nothingToSend : ℤ := -2

def maxCarr : ℕ := 20
def maxSlots : ℕ := 256
def mskLen : ℕ := 512

/-- `mode_` -/
def slotMode : ℤ := 0
def contMode : ℤ := 1

/-- `layout_` -/
def firstFit : ℤ := 0
def bestFit : ℤ := 1

/-- The configured part of a `Frame`, within the limits checked by `new-frame`. -/
structure Frame where
  carriers : ℕ
  timeslots : ℕ
  burstsize : ℕ
  carriers_pos : 1 ≤ carriers := by decide
  carriers_le : carriers ≤ maxCarr := by decide
  timeslots_pos : 1 ≤ timeslots := by decide
  timeslots_le : timeslots ≤ maxSlots := by decide

/-- Frames that are named by their carriers and timeslots. -/
def Frame.twoByOne : Frame where
  carriers := 2
  timeslots := 1
  burstsize := 100

def Frame.oneByTwo : Frame where
  carriers := 1
  timeslots := 2
  burstsize := 10

def Frame.oneByFour : Frame where
  carriers := 1
  timeslots := 4
  burstsize := 10

/-- The pairs `(i, j)` in the order of the two nested loops over a frame. -/
def Frame.cells (fr : Frame) : List (ℕ × ℕ) :=
  (List.range fr.carriers).flatMap fun i => (List.range fr.timeslots).map fun j => (i, j)

@[simp] theorem Frame.mem_cells {fr : Frame} {c : ℕ × ℕ} :
    c ∈ fr.cells ↔ c.1 < fr.carriers ∧ c.2 < fr.timeslots := by
  obtain ⟨i, j⟩ := c
  simp [Frame.cells]

/-- One entry of `Terminal::rules`; `rule = 1` is the SMALL rule. -/
structure Rule (nf : ℕ) where
  rule : ℤ
  fp : Fin nf

/-- What `new-frame`, `add-rule` and the bound Tcl variables set up: `n` active
terminals and `nf` frames. The number of a terminal is also its `id_`, as
`new-rule` sets it. The event scheduler rejects a negative `frame_duration_`. -/
structure Config (n nf : ℕ) where
  sf : Fin nf → Frame
  rules : Fin n → List (Rule nf)
  mode : ℤ
  layout : ℤ
  slThreshold : ℤ
  frameDuration : ℚ
  frameDuration_nonneg : 0 ≤ frameDuration := by norm_num
  masksize_le : ∏ f, (sf f).timeslots ≤ mskLen * 8 := by decide

variable {n nf : ℕ}

/-- A single frame, in superframes of one second. -/
def Config.oneFrame (fr : Frame) (rules : Fin n → List (Rule 1)) (mode layout : ℤ) :
    Config n 1 where
  sf _ := fr
  rules := rules
  mode := mode
  layout := layout
  slThreshold := 0
  frameDuration := 1
  masksize_le := by
    rw [Fin.prod_univ_one]
    exact fr.timeslots_le.trans (by decide)

/-- The rule that lets every request into the only frame. -/
def Rule.any : Rule 1 := ⟨0, 0⟩

/-- The rule that lets small requests into the only frame. -/
def Rule.small : Rule 1 := ⟨1, 0⟩

namespace Config

variable (cfg : Config n nf)

/-- `masksize`, multiplied by `timeslots_` for each new frame. -/
def masksize : ℕ := ∏ f, (cfg.sf f).timeslots

/-- `slot_count_`, as `new-frame` counts it. -/
def slotCount : ℕ := ∑ f, (cfg.sf f).carriers * (cfg.sf f).timeslots

/-- `masksize/fp->timeslots_`: the bits that one timeslot covers. -/
def fieldsize (f : Fin nf) : ℕ := cfg.masksize / (cfg.sf f).timeslots

/-- Start of timeslot `j` of a frame, in seconds from the start of the superframe. -/
def slotOffset (f : Fin nf) (j : ℕ) : ℚ := j * cfg.frameDuration / (cfg.sf f).timeslots

theorem slotOffset_nonneg (f : Fin nf) (j : ℕ) : 0 ≤ cfg.slotOffset f j := by
  have := cfg.frameDuration_nonneg
  unfold slotOffset
  positivity

theorem timeslots_dvd (f : Fin nf) : (cfg.sf f).timeslots ∣ cfg.masksize :=
  Finset.dvd_prod_of_mem (fun f => (cfg.sf f).timeslots) (Finset.mem_univ f)

theorem masksize_pos : 0 < cfg.masksize :=
  Finset.prod_pos fun f _ => (cfg.sf f).timeslots_pos

theorem timeslots_mul_fieldsize (f : Fin nf) :
    (cfg.sf f).timeslots * cfg.fieldsize f = cfg.masksize :=
  Nat.mul_div_cancel' (cfg.timeslots_dvd f)

theorem timeslots_le_masksize (f : Fin nf) : (cfg.sf f).timeslots ≤ cfg.masksize :=
  Nat.le_of_dvd cfg.masksize_pos (cfg.timeslots_dvd f)

/-- A rule that a terminal with this deficit may use. -/
def Eligible (deficit : ℤ) (r : Rule nf) : Prop := r.rule ≠ 1 ∨ deficit ≤ cfg.slThreshold

instance (deficit : ℤ) (r : Rule nf) : Decidable (cfg.Eligible deficit r) :=
  inferInstanceAs (Decidable (_ ∨ _))

theorem not_eligible_iff {deficit : ℤ} {r : Rule nf} :
    ¬ cfg.Eligible deficit r ↔ r.rule = 1 ∧ cfg.slThreshold < deficit := by
  simp [Eligible]

end Config

/-- The cells of all frames and the masks of all terminals. -/
structure Store (n nf : ℕ) where
  frame : Fin nf → ℕ → ℕ → ℤ
  mask : Fin n → Mask

namespace Store

/-- `fp->frame[i][j] = tp->id_; tp->setmask(j, masksize/fp->timeslots_);` -/
def take (cfg : Config n nf) (s : Store n nf) (f : Fin nf) (t : Fin n) (i j : ℕ) : Store n nf where
  frame := Function.update s.frame f
    (Function.update (s.frame f) i (Function.update (s.frame f i) j t))
  mask := Function.update s.mask t ((s.mask t).setmask j (cfg.fieldsize f))

/-- `Frame::reset` on every frame and `Terminal::reset` on every terminal. -/
def reset (cfg : Config n nf) (s : Store n nf) : Store n nf where
  frame f i j := if i < (cfg.sf f).carriers ∧ j < (cfg.sf f).timeslots then nothingToSend
    else s.frame f i j
  mask t := (s.mask t).reset cfg.masksize

/-- The test that `firstfit` and `bestfit` make on a cell. -/
def avail (cfg : Config n nf) (s : Store n nf) (f : Fin nf) (t : Fin n) (c : ℕ × ℕ) : Bool :=
  s.frame f c.1 c.2 == nothingToSend && (s.mask t).testmask c.2 (cfg.fieldsize f)

/-- The frame still has a free cell compatible with the mask of the terminal. -/
def Usable (cfg : Config n nf) (s : Store n nf) (f : Fin nf) (t : Fin n) : Prop :=
  ∃ c ∈ (cfg.sf f).cells, s.avail cfg f t c = true

instance (cfg : Config n nf) (s : Store n nf) (f : Fin nf) (t : Fin n) :
    Decidable (s.Usable cfg f t) :=
  inferInstanceAs (Decidable (∃ c ∈ (cfg.sf f).cells, s.avail cfg f t c = true))

variable {cfg : Config n nf} {s : Store n nf} {f g : Fin nf} {t u : Fin n} {i j : ℕ} {c : ℕ × ℕ}

theorem take_frame (g : Fin nf) (i' j' : ℕ) :
    (s.take cfg f t i j).frame g i' j' =
      if g = f ∧ i' = i ∧ j' = j then (t : ℤ) else s.frame g i' j' := by
  by_cases hg : g = f
  · subst hg
    by_cases hi : i' = i
    · subst hi
      by_cases hj : j' = j <;> simp [take, hj]
    · simp [take, hi]
  · simp [take, hg]

theorem take_mask_other (h : u ≠ t) : (s.take cfg f t i j).mask u = s.mask u := by
  simp [take, h]

@[simp] theorem take_mask_self :
    (s.take cfg f t i j).mask t = (s.mask t).setmask j (cfg.fieldsize f) := by
  simp [take]

theorem avail_iff : s.avail cfg f t c = true ↔
    s.frame f c.1 c.2 = nothingToSend ∧ (s.mask t).testmask c.2 (cfg.fieldsize f) = true := by
  simp [avail]

theorem natCast_ne_nothingToSend (k : ℕ) : (k : ℤ) ≠ nothingToSend := by
  unfold nothingToSend
  omega

/-- A cell that is available after another one was taken was available before. -/
theorem avail_of_avail_take (h : (s.take cfg f t i j).avail cfg g u c = true) :
    s.avail cfg g u c = true := by
  rw [avail_iff] at h ⊢
  obtain ⟨free, clear⟩ := h
  constructor
  · rw [take_frame] at free
    split at free
    · exact absurd free (natCast_ne_nothingToSend t)
    · exact free
  · by_cases hu : u = t
    · subst hu
      rw [take_mask_self] at clear
      refine Mask.testmask_of_le (fun b hb => ?_) clear
      rw [Mask.bit_setmask, hb, Bool.true_or]
    · rwa [take_mask_other hu] at clear

theorem Usable.of_take (h : (s.take cfg f t i j).Usable cfg g u) : s.Usable cfg g u := by
  obtain ⟨c, hc, free⟩ := h
  exact ⟨c, hc, avail_of_avail_take free⟩

end Store

/-- A cell `frame[i][j]` of one frame of the superframe. -/
abbrev Cell (nf : ℕ) := (_ : Fin nf) × ℕ × ℕ

def Config.allCells (cfg : Config n nf) : Finset (Cell nf) :=
  Finset.univ.sigma fun f =>
    Finset.range (cfg.sf f).carriers ×ˢ Finset.range (cfg.sf f).timeslots

/-- Burst size of the frame of a cell. -/
def Config.cellBytes (cfg : Config n nf) (c : Cell nf) : ℤ := (cfg.sf c.1).burstsize

namespace Store

def cell (s : Store n nf) (c : Cell nf) : ℤ := s.frame c.1 c.2.1 c.2.2

def freeCells (cfg : Config n nf) (s : Store n nf) : Finset (Cell nf) :=
  cfg.allCells.filter fun c => s.cell c = nothingToSend

variable {cfg : Config n nf} {s : Store n nf} {f : Fin nf} {t : Fin n} {i j : ℕ} {c : Cell nf}

@[simp] theorem mem_allCells :
    c ∈ cfg.allCells ↔ (c.2.1, c.2.2) ∈ (cfg.sf c.1).cells := by
  simp [Config.allCells]

@[simp] theorem mem_freeCells :
    c ∈ s.freeCells cfg ↔ c ∈ cfg.allCells ∧ s.cell c = nothingToSend :=
  Finset.mem_filter

theorem card_allCells (cfg : Config n nf) : cfg.allCells.card = cfg.slotCount := by
  simp [Config.allCells, Config.slotCount, Finset.card_sigma]

/-- At the start of a superframe all cells are free, as many as `slot_count_`. -/
theorem freeCells_reset (cfg : Config n nf) (s : Store n nf) :
    (s.reset cfg).freeCells cfg = cfg.allCells := by
  apply Finset.filter_true_of_mem
  intro c hc
  have inside := Frame.mem_cells.mp (mem_allCells.mp hc)
  simp [cell, reset, inside.1, inside.2]

theorem cell_take (c : Cell nf) :
    (s.take cfg f t i j).cell c = if c = ⟨f, i, j⟩ then (t : ℤ) else s.cell c := by
  obtain ⟨g, i', j'⟩ := c
  rw [cell, take_frame]
  refine if_congr ?_ rfl rfl
  constructor
  · rintro ⟨rfl, rfl, rfl⟩
    rfl
  · intro h
    cases h
    exact ⟨rfl, rfl, rfl⟩

/-- Taking an available cell removes exactly that one from the free cells. -/
theorem freeCells_take :
    (s.take cfg f t i j).freeCells cfg = (s.freeCells cfg).erase ⟨f, i, j⟩ := by
  ext c
  rw [mem_freeCells, cell_take, Finset.mem_erase, mem_freeCells]
  by_cases same : c = ⟨f, i, j⟩
  · simp [same, natCast_ne_nothingToSend]
  · simp [same]

end Store

/-- `AllocatorMFTDMA::firstfit`: the double it returns and the store it leaves. -/
def firstfit (cfg : Config n nf) (f : Fin nf) (t : Fin n) (s : Store n nf) : ℚ × Store n nf :=
  match (cfg.sf f).cells.find? (s.avail cfg f t) with
  | some (i, j) => (cfg.slotOffset f j, s.take cfg f t i j)
  | none => (-1, s)

/-- `AllocatorMFTDMA::bestfit`: the scan keeps `(i_opt, j_opt)`, with `none` for
the initial `i_opt = -1`. -/
def bestfit (cfg : Config n nf) (f : Fin nf) (t : Fin n) (s : Store n nf) : ℚ × Store n nf :=
  let opt := (cfg.sf f).cells.foldl
    (fun opt c => if s.avail cfg f t c && c.2 < opt.2 then (some c.1, c.2) else opt)
    ((none : Option ℕ), cfg.masksize)
  match opt with
  | (some i, j) => (cfg.slotOffset f j, s.take cfg f t i j)
  | (none, _) => (-1, s)

/-- What a layout may do with one frame: take an available cell and return its
offset, or find none and change nothing. -/
inductive Fits (cfg : Config n nf) (f : Fin nf) (t : Fin n) (s : Store n nf) :
    ℚ × Store n nf → Prop
  | taken (i j : ℕ) (cell : (i, j) ∈ (cfg.sf f).cells) (free : s.avail cfg f t (i, j) = true) :
      Fits cfg f t s (cfg.slotOffset f j, s.take cfg f t i j)
  | refused (full : ¬ s.Usable cfg f t) : Fits cfg f t s (-1, s)

theorem firstfit_fits (cfg : Config n nf) (f : Fin nf) (t : Fin n) (s : Store n nf) :
    Fits cfg f t s (firstfit cfg f t s) := by
  unfold firstfit
  split
  · next i j found =>
      exact .taken i j (List.mem_of_find?_eq_some found) (List.find?_some found)
  · next found =>
      refine .refused ?_
      rintro ⟨c, hc, free⟩
      exact List.find?_eq_none.mp found c hc free

/-- The cells of nested loops come in carrier-major order. -/
theorem pairwise_cells (carriers timeslots : ℕ) :
    ((List.range carriers).flatMap fun i => (List.range timeslots).map fun j => (i, j)).Pairwise
      fun c d => c.1 < d.1 ∨ c.1 = d.1 ∧ c.2 < d.2 := by
  apply List.pairwise_flatMap.mpr
  constructor
  · intro i _
    exact List.pairwise_map.mpr (List.pairwise_lt_range.imp fun lt => .inr ⟨rfl, lt⟩)
  · refine List.pairwise_lt_range.imp fun lt c hc d hd => .inl ?_
    obtain ⟨j, -, rfl⟩ := List.mem_map.mp hc
    obtain ⟨j', -, rfl⟩ := List.mem_map.mp hd
    exact lt

theorem ordered_cells (carriers timeslots : ℕ) :
    ((List.range carriers).flatMap fun i => (List.range timeslots).map fun j => (i, j)).Pairwise
      fun c d => c.1 ≤ d.1 :=
  (pairwise_cells carriers timeslots).imp fun lt =>
    lt.elim Nat.le_of_lt fun same => Nat.le_of_eq same.1

/-- What the scan of `bestfit` holds after these cells: a cell that passes the test,
of the least timeslot and then of the least carrier, or the initial values. -/
def Optimum (ok : ℕ × ℕ → Bool) (limit : ℕ) (cells : List (ℕ × ℕ)) : Option ℕ × ℕ → Prop
  | (some i, j) => (i, j) ∈ cells ∧ ok (i, j) = true ∧
      ∀ d ∈ cells, ok d = true → j < d.2 ∨ j = d.2 ∧ i ≤ d.1
  | (none, j) => j = limit ∧ ∀ c ∈ cells, ok c = false

/-- One more cell, of a carrier that is no lower than the ones before. -/
private theorem Optimum.snoc {ok : ℕ × ℕ → Bool} {limit : ℕ} {cells : List (ℕ × ℕ)} {c : ℕ × ℕ}
    {opt : Option ℕ × ℕ} (h : Optimum ok limit cells opt) (inside : c.2 < limit)
    (ordered : ∀ d ∈ cells, d.1 ≤ c.1) : Optimum ok limit (cells ++ [c])
      (if ok c && c.2 < opt.2 then (some c.1, c.2) else opt) := by
  have mem : c ∈ cells ++ [c] := List.mem_append_right _ (List.mem_singleton.mpr rfl)
  obtain ⟨_ | i, j⟩ := opt
  · obtain ⟨rfl, none⟩ := h
    cases free : ok c with
    | false =>
        refine ⟨rfl, List.forall_mem_append.mpr ⟨none, ?_⟩⟩
        exact List.forall_mem_singleton.mpr free
    | true =>
        simp only [Bool.true_and, inside, decide_true, if_true]
        refine ⟨mem, free, List.forall_mem_append.mpr ⟨fun d hd free' => ?_, ?_⟩⟩
        · rw [none d hd] at free'
          cases free'
        · exact List.forall_mem_singleton.mpr fun _ => .inr ⟨rfl, Nat.le_refl _⟩
  · obtain ⟨old, free, least⟩ := h
    by_cases better : (ok c && decide (c.2 < j)) = true
    · simp only [better, if_true]
      obtain ⟨free', less⟩ := Bool.and_eq_true_iff.mp better
      have less := of_decide_eq_true less
      refine ⟨mem, free', List.forall_mem_append.mpr ⟨fun d hd ok' => .inl ?_, ?_⟩⟩
      · have := least d hd ok'
        omega
      · exact List.forall_mem_singleton.mpr fun _ => .inr ⟨rfl, Nat.le_refl _⟩
    · simp only [better, Bool.false_eq_true, if_false]
      refine ⟨List.mem_append_left _ old, free, List.forall_mem_append.mpr ⟨least, ?_⟩⟩
      refine List.forall_mem_singleton.mpr fun free' => ?_
      have carrier := ordered _ old
      simp only [free', Bool.true_and, decide_eq_true_eq] at better carrier
      omega

/-- The scan of `bestfit`, over any list of cells in order of their carriers. -/
theorem optimum_scan (ok : ℕ × ℕ → Bool) (limit : ℕ) (cells : List (ℕ × ℕ))
    (small : ∀ c ∈ cells, c.2 < limit) (ordered : cells.Pairwise fun c d => c.1 ≤ d.1) :
    Optimum ok limit cells
      (cells.foldl (fun opt c => if ok c && c.2 < opt.2 then (some c.1, c.2) else opt)
        ((none : Option ℕ), limit)) := by
  induction cells using List.reverseRecOn with
  | nil => exact ⟨rfl, by simp⟩
  | append_singleton cells c ih =>
      obtain ⟨before, -, last⟩ := List.pairwise_append.mp ordered
      have held := ih (fun d hd => small d (List.mem_append_left _ hd)) before
      rw [List.foldl_append, List.foldl_cons, List.foldl_nil]
      exact held.snoc (small c (List.mem_append_right _ (List.mem_singleton.mpr rfl)))
        fun d hd => last d hd c (List.mem_singleton.mpr rfl)

theorem bestfit_fits (cfg : Config n nf) (f : Fin nf) (t : Fin n) (s : Store n nf) :
    Fits cfg f t s (bestfit cfg f t s) := by
  have small : ∀ c ∈ (cfg.sf f).cells, c.2 < cfg.masksize := fun c hc =>
    Nat.lt_of_lt_of_le (Frame.mem_cells.mp hc).2 (cfg.timeslots_le_masksize f)
  have scan := optimum_scan (s.avail cfg f t) cfg.masksize _ small
    (ordered_cells (cfg.sf f).carriers (cfg.sf f).timeslots)
  unfold bestfit
  simp only
  generalize (cfg.sf f).cells.foldl _ _ = opt at scan ⊢
  obtain ⟨_ | i, j⟩ := opt
  · refine .refused ?_
    rintro ⟨c, hc, free⟩
    rw [scan.2 c hc] at free
    cases free
  · exact .taken i j scan.1 scan.2.1

end Mftdma.Allocator
