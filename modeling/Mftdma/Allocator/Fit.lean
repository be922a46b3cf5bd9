import Mathlib.Order.Interval.Set.Basic
import Mftdma.Allocator.Superframe

/-!
# Marks of a terminal and cells of a frame

A mask stands for the union of the fields that were marked since its reset, as long as all
of them lie in the first `masksize` bits; `Marks` says so, and no byte beyond the array is
touched.

`Grid` is a frame of any size as the two layouts see it. They agree on whether a burst fits:
`firstfit` takes the first cell that is free and compatible with the mask, `bestfit` one of
the least timeslot, and neither changes anything else. The layouts of a superframe are those
of its grids.
-/

namespace Mftdma.Allocator

variable {n nf : ℕ}

namespace Mask

/-- Any number of calls of `setmask`, each with its `p` and `fieldsize`. -/
def setmasks (mask : Mask) (calls : List (ℕ × ℕ)) : Mask :=
  calls.foldl (fun m call => m.setmask call.1 call.2) mask

/-- The bytes that `reset` writes. -/
def resetBytes (masksize : ℕ) : List ℕ := List.range ((masksize + 7) / 8)

/-- The values of `j1` in the loop of `setmask`, which writes these bytes. The loop of
`testmask` reads them from the first one on until it returns. -/
def fieldBytes (p fieldsize : ℕ) : List ℕ :=
  (List.range fieldsize).map fun i => (p * fieldsize + i) / 8

/-- The bits of a timeslot. -/
def field (p fieldsize : ℕ) : Set ℕ := Set.Ico (p * fieldsize) ((p + 1) * fieldsize)

theorem mem_fieldBytes {p fieldsize j : ℕ} :
    j ∈ fieldBytes p fieldsize ↔ ∃ b ∈ field p fieldsize, j = b / 8 := by
  simp only [fieldBytes, List.mem_map, List.mem_range, field, Set.mem_Ico, Nat.succ_mul]
  constructor
  · rintro ⟨i, hi, rfl⟩
    exact ⟨p * fieldsize + i, ⟨Nat.le_add_right _ _, Nat.add_lt_add_left hi _⟩, rfl⟩
  · rintro ⟨b, ⟨low, high⟩, rfl⟩
    exact ⟨b - p * fieldsize, by omega, by rw [Nat.add_sub_cancel' low]⟩

/-- `setmask` writes no other byte. -/
theorem setmask_of_notMem {mask : Mask} {p fieldsize j : ℕ} (h : j ∉ fieldBytes p fieldsize) :
    mask.setmask p fieldsize j = mask j := by
  have kept : ∀ is : List ℕ, (∀ i ∈ is, (p * fieldsize + i) / 8 ≠ j) → ∀ m : Mask,
      is.foldl (fun m i => m.setBit (p * fieldsize + i)) m j = m j := by
    intro is
    induction is with
    | nil => exact fun _ _ => rfl
    | cons i is ih =>
        intro apart m
        obtain ⟨here, rest⟩ := List.forall_mem_cons.mp apart
        exact (ih rest _).trans (Function.update_of_ne (Ne.symm here) _ _)
  refine kept _ (fun i hi same => h ?_) mask
  exact List.mem_map.mpr ⟨i, hi, same⟩

/-- `testmask` looks at no other byte. -/
theorem testmask_congr {mask mask' : Mask} {p fieldsize : ℕ}
    (h : ∀ j ∈ fieldBytes p fieldsize, mask j = mask' j) :
    mask.testmask p fieldsize = mask'.testmask p fieldsize := by
  have same : ∀ b ∈ field p fieldsize, mask.bit b = mask'.bit b := fun b hb => by
    rw [bit, bit, h _ (mem_fieldBytes.mpr ⟨b, hb, rfl⟩)]
  apply Bool.eq_iff_iff.mpr
  simp only [testmask_iff]
  constructor
  · exact fun clear b low high => (same b ⟨low, high⟩).symm.trans (clear b low high)
  · exact fun clear b low high => (same b ⟨low, high⟩).trans (clear b low high)

theorem bit_setmasks (mask : Mask) (calls : List (ℕ × ℕ)) (b : ℕ) :
    (mask.setmasks calls).bit b = true ↔
      mask.bit b = true ∨ ∃ call ∈ calls, b ∈ field call.1 call.2 := by
  induction calls generalizing mask with
  | nil => simp [setmasks]
  | cons call calls ih =>
      have first := bit_setmask mask call.1 call.2 b
      rw [show mask.setmasks (call :: calls) = (mask.setmask call.1 call.2).setmasks calls from
        rfl, ih, first]
      simp only [Bool.or_eq_true, decide_eq_true_eq, List.exists_mem_cons_iff, or_assoc]
      exact Iff.rfl

/-- The mask stands for these fields: its bits, what `testmask` answers, and the bytes that
`reset`, `setmask` and `testmask` touch. -/
structure Marks (masksize : ℕ) (calls : List (ℕ × ℕ)) (mask : Mask) : Prop where
  bits : ∀ b < masksize, (mask.bit b = true ↔ ∃ call ∈ calls, b ∈ field call.1 call.2)
  test : ∀ p fieldsize, (p + 1) * fieldsize ≤ masksize →
    (mask.testmask p fieldsize = true ↔
      ∀ call ∈ calls, field p fieldsize ∩ field call.1 call.2 = ∅)
  cleared : ∀ j ∈ resetBytes masksize, j < mskLen
  written : ∀ call ∈ calls, ∀ j ∈ fieldBytes call.1 call.2, j < mskLen
  read : ∀ p fieldsize, (p + 1) * fieldsize ≤ masksize →
    ∀ j ∈ fieldBytes p fieldsize, j < mskLen

/-- A mask that is reset and then marked stands for the fields marked. -/
theorem marks_setmasks {masksize : ℕ} (fits : masksize ≤ mskLen * 8) (mask : Mask)
    (calls : List (ℕ × ℕ)) (inside : ∀ call ∈ calls, (call.1 + 1) * call.2 ≤ masksize) :
    Marks masksize calls ((mask.reset masksize).setmasks calls) := by
  have bits : ∀ b < masksize, (((mask.reset masksize).setmasks calls).bit b = true ↔
      ∃ call ∈ calls, b ∈ field call.1 call.2) := fun b hb => by
    rw [bit_setmasks, bit_reset mask hb]
    simp
  have touched : ∀ p fieldsize, (p + 1) * fieldsize ≤ masksize →
      ∀ j ∈ fieldBytes p fieldsize, j < mskLen := by
    intro p fieldsize within j hj
    obtain ⟨b, ⟨-, high⟩, rfl⟩ := mem_fieldBytes.mp hj
    omega
  refine ⟨bits, fun p fieldsize within => ?_, fun j hj => ?_,
    fun call hc => touched call.1 call.2 (inside call hc), touched⟩
  · rw [testmask_iff]
    constructor
    · intro clear call hc
      refine Set.eq_empty_iff_forall_notMem.mpr fun b ⟨⟨low, high⟩, marked⟩ => ?_
      have set := (bits b (by omega)).mpr ⟨call, hc, marked⟩
      rw [clear b low high] at set
      cases set
    · intro apart b low high
      apply Bool.eq_false_iff.mpr
      intro set
      obtain ⟨call, hc, marked⟩ := (bits b (by omega)).mp set
      exact Set.eq_empty_iff_forall_notMem.mp (apart call hc) b ⟨⟨low, high⟩, marked⟩
  · have := List.mem_range.mp hj
    omega

/-- Two fields of different sizes in a mask of twelve bits, on memory that was all ones. -/
theorem marks_setmasks_twelve :
    Marks 12 [(1, 3), (2, 4)] ((Mask.reset 12 fun _ => 255).setmasks [(1, 3), (2, 4)]) :=
  marks_setmasks (by decide) _ _ (by decide)

end Mask

/-- A frame as `firstfit` and `bestfit` see it, with the `masksize` of its superframe and
`frame_duration_`. The number of its carriers and timeslots is not limited. -/
structure Grid where
  carriers : ℕ
  timeslots : ℕ
  masksize : ℕ
  frameDuration : ℚ
  carriers_pos : 1 ≤ carriers := by decide
  timeslots_pos : 1 ≤ timeslots := by decide
  masksize_pos : 1 ≤ masksize := by decide
  timeslots_dvd : timeslots ∣ masksize := by decide
  frameDuration_nonneg : 0 ≤ frameDuration := by norm_num

/-- The cells of one frame and the mask of one terminal. -/
structure Site where
  frame : ℕ → ℕ → ℤ
  mask : Mask

namespace Grid

variable (g : Grid)

/-- The pairs `(i, j)` in the order of the two nested loops. -/
def cells : List (ℕ × ℕ) :=
  (List.range g.carriers).flatMap fun i => (List.range g.timeslots).map fun j => (i, j)

def fieldsize : ℕ := g.masksize / g.timeslots

/-- `double(j)*frame_duration_/fp->timeslots_` -/
def slotOffset (j : ℕ) : ℚ := j * g.frameDuration / g.timeslots

/-- The test on a cell. -/
def avail (s : Site) (c : ℕ × ℕ) : Bool :=
  s.frame c.1 c.2 == nothingToSend && s.mask.testmask c.2 g.fieldsize

/-- The terminal of the number `id` takes the cell. -/
def take (id : ℕ) (s : Site) (c : ℕ × ℕ) : Site where
  frame := Function.update s.frame c.1 (Function.update (s.frame c.1) c.2 id)
  mask := s.mask.setmask c.2 g.fieldsize

/-- `AllocatorMFTDMA::firstfit` -/
def firstfit (id : ℕ) (s : Site) : ℚ × Site :=
  match g.cells.find? (g.avail s) with
  | some c => (g.slotOffset c.2, g.take id s c)
  | none => (-1, s)

/-- `AllocatorMFTDMA::bestfit`, with `none` for the initial `i_opt = -1`. -/
def bestfit (id : ℕ) (s : Site) : ℚ × Site :=
  let opt := g.cells.foldl
    (fun opt c => if g.avail s c && c.2 < opt.2 then (some c.1, c.2) else opt)
    ((none : Option ℕ), g.masksize)
  match opt with
  | (some i, j) => (g.slotOffset j, g.take id s (i, j))
  | (none, _) => (-1, s)

/-- A free cell that is compatible with the mask. -/
structure Free (s : Site) (c : ℕ × ℕ) : Prop where
  carrier : c.1 < g.carriers
  timeslot : c.2 < g.timeslots
  empty : s.frame c.1 c.2 = nothingToSend
  clear : s.mask.testmask c.2 g.fieldsize = true

/-- The first of them in carrier-major order. -/
structure First (s : Site) (c : ℕ × ℕ) : Prop where
  free : g.Free s c
  least : ∀ d, g.Free s d → c.1 < d.1 ∨ c.1 = d.1 ∧ c.2 ≤ d.2

/-- One of the least timeslot, and among these the one of the lowest carrier. -/
structure Best (s : Site) (c : ℕ × ℕ) : Prop where
  free : g.Free s c
  least : ∀ d, g.Free s d → c.2 < d.2 ∨ c.2 = d.2 ∧ c.1 ≤ d.1

/-- The call succeeded: `c` belongs to the terminal, the bits of its timeslot are set, and
nothing else is different. -/
structure Taken (id : ℕ) (s : Site) (c : ℕ × ℕ) (result : ℚ × Site) : Prop where
  offset : result.1 = g.slotOffset c.2
  success : 0 ≤ result.1
  frame : ∀ i j, result.2.frame i j = if (i, j) = c then (id : ℤ) else s.frame i j
  mask : ∀ b, result.2.mask.bit b = true ↔
    s.mask.bit b = true ∨ c.2 * g.fieldsize ≤ b ∧ b < (c.2 + 1) * g.fieldsize

/-- What a layout makes of a frame, if `Pick` says which cell it prefers: it succeeds exactly
when a cell fits, and a failure changes nothing. -/
structure Places (Pick : Site → ℕ × ℕ → Prop) (id : ℕ) (s : Site) (result : ℚ × Site) :
    Prop where
  succeeds : 0 ≤ result.1 ↔ ∃ c, g.Free s c
  takes : 0 ≤ result.1 → ∃ c, Pick s c ∧ g.Taken id s c result
  fails : ¬ 0 ≤ result.1 → result = (-1, s)

variable {g} {id : ℕ} {s : Site} {c : ℕ × ℕ} {Pick : Site → ℕ × ℕ → Prop}

theorem free_iff : g.Free s c ↔ c ∈ g.cells ∧ g.avail s c = true := by
  have cell : c ∈ g.cells ↔ c.1 < g.carriers ∧ c.2 < g.timeslots := by
    obtain ⟨i, j⟩ := c
    simp [cells]
  have test : g.avail s c = true ↔
      s.frame c.1 c.2 = nothingToSend ∧ s.mask.testmask c.2 g.fieldsize = true := by
    simp [avail]
  rw [cell, test]
  constructor
  · exact fun free => ⟨⟨free.carrier, free.timeslot⟩, free.empty, free.clear⟩
  · rintro ⟨⟨carrier, timeslot⟩, empty, clear⟩
    exact ⟨carrier, timeslot, empty, clear⟩

theorem slotOffset_nonneg (j : ℕ) : 0 ≤ g.slotOffset j := by
  have := g.frameDuration_nonneg
  unfold slotOffset
  positivity

theorem taken_take (id : ℕ) (s : Site) (c : ℕ × ℕ) :
    g.Taken id s c (g.slotOffset c.2, g.take id s c) := by
  refine ⟨rfl, slotOffset_nonneg c.2, fun i j => ?_, fun b => ?_⟩
  · obtain ⟨i', j'⟩ := c
    by_cases hi : i = i'
    · subst hi
      by_cases hj : j = j' <;> simp [take, hj]
    · simp [take, hi]
  · show (s.mask.setmask c.2 g.fieldsize).bit b = true ↔ _
    rw [Mask.bit_setmask]
    simp

theorem Places.of_taken (free : g.Free s c) (pick : Pick s c) :
    g.Places Pick id s (g.slotOffset c.2, g.take id s c) :=
  ⟨iff_of_true (slotOffset_nonneg c.2) ⟨c, free⟩, fun _ => ⟨c, pick, taken_take id s c⟩,
    fun negative => absurd (slotOffset_nonneg c.2) negative⟩

theorem Places.of_full (full : ¬ ∃ c, g.Free s c) : g.Places Pick id s (-1, s) := by
  have negative : ¬ (0 : ℚ) ≤ -1 := by norm_num
  exact ⟨iff_of_false negative full, fun success => absurd success negative, fun _ => rfl⟩

theorem firstfit_places (g : Grid) (id : ℕ) (s : Site) :
    g.Places g.First id s (g.firstfit id s) := by
  unfold firstfit
  split
  · next c found =>
      obtain ⟨ok, before, after, split, skipped⟩ := List.find?_eq_some_iff_append.mp found
      have free : g.Free s c := free_iff.mpr ⟨List.mem_of_find?_eq_some found, ok⟩
      refine .of_taken free ⟨free, fun d hd => ?_⟩
      have ordered : g.cells.Pairwise _ := pairwise_cells g.carriers g.timeslots
      obtain ⟨mem, ok'⟩ := free_iff.mp hd
      rw [split] at ordered mem
      obtain early | here := List.mem_append.mp mem
      · have := skipped d early
        rw [ok'] at this
        cases this
      · obtain rfl | later := List.mem_cons.mp here
        · exact .inr ⟨rfl, Nat.le_refl _⟩
        · have tail := (List.pairwise_append.mp ordered).2.1
          have less := (List.pairwise_cons.mp tail).1 d later
          omega
  · next none =>
      refine .of_full ?_
      rintro ⟨c, free⟩
      obtain ⟨mem, ok⟩ := free_iff.mp free
      exact List.find?_eq_none.mp none c mem ok

theorem bestfit_places (g : Grid) (id : ℕ) (s : Site) :
    g.Places g.Best id s (g.bestfit id s) := by
  have small : ∀ c ∈ g.cells, c.2 < g.masksize := fun c hc => by
    obtain ⟨i, -, inside⟩ := List.mem_flatMap.mp hc
    obtain ⟨j, hj, rfl⟩ := List.mem_map.mp inside
    exact Nat.lt_of_lt_of_le (List.mem_range.mp hj) (Nat.le_of_dvd g.masksize_pos g.timeslots_dvd)
  have scan := optimum_scan (g.avail s) g.masksize _ small
    (ordered_cells g.carriers g.timeslots)
  unfold bestfit
  simp only
  generalize g.cells.foldl _ _ = opt at scan ⊢
  obtain ⟨_ | i, j⟩ := opt
  · refine .of_full ?_
    rintro ⟨c, free⟩
    obtain ⟨mem, ok⟩ := free_iff.mp free
    rw [scan.2 c mem] at ok
    cases ok
  · obtain ⟨mem, ok, least⟩ := scan
    have free : g.Free s (i, j) := free_iff.mpr ⟨mem, ok⟩
    refine .of_taken free ⟨free, fun d hd => ?_⟩
    obtain ⟨mem', ok'⟩ := free_iff.mp hd
    exact least d mem' ok'

/-- The two layouts agree on what fits, each takes the cell that it prefers, and neither
changes anything else. -/
theorem layouts_agree (g : Grid) (id : ℕ) (s : Site) :
    (0 ≤ (g.firstfit id s).1 ↔ 0 ≤ (g.bestfit id s).1) ∧
      g.Places g.First id s (g.firstfit id s) ∧ g.Places g.Best id s (g.bestfit id s) := by
  have first := firstfit_places g id s
  have best := bestfit_places g id s
  exact ⟨first.succeeds.trans best.succeeds.symm, first, best⟩

end Grid

/-- A frame of a superframe. -/
def Config.grid (cfg : Config n nf) (f : Fin nf) : Grid where
  carriers := (cfg.sf f).carriers
  timeslots := (cfg.sf f).timeslots
  masksize := cfg.masksize
  frameDuration := cfg.frameDuration
  carriers_pos := (cfg.sf f).carriers_pos
  timeslots_pos := (cfg.sf f).timeslots_pos
  masksize_pos := cfg.masksize_pos
  timeslots_dvd := cfg.timeslots_dvd f
  frameDuration_nonneg := cfg.frameDuration_nonneg

namespace Store

/-- The part of the store that a call for the frame `f` and the terminal `t` works on. -/
def site (s : Store n nf) (f : Fin nf) (t : Fin n) : Site := ⟨s.frame f, s.mask t⟩

def putSite (s : Store n nf) (f : Fin nf) (t : Fin n) (x : Site) : Store n nf where
  frame := Function.update s.frame f x.frame
  mask := Function.update s.mask t x.mask

variable {cfg : Config n nf} {f : Fin nf} {t : Fin n}

@[simp] theorem putSite_site (s : Store n nf) (f : Fin nf) (t : Fin n) :
    s.putSite f t (s.site f t) = s := by
  simp [putSite, site]

theorem putSite_take (s : Store n nf) (c : ℕ × ℕ) :
    s.putSite f t ((cfg.grid f).take t (s.site f t) c) = s.take cfg f t c.1 c.2 := rfl

end Store

/-- On a frame of a superframe `firstfit` works as on its grid. -/
theorem firstfit_eq_grid (cfg : Config n nf) (f : Fin nf) (t : Fin n) (s : Store n nf) :
    firstfit cfg f t s =
      ((cfg.grid f).firstfit t (s.site f t)).map id (s.putSite f t) := by
  unfold firstfit Grid.firstfit
  rw [show (cfg.grid f).cells.find? ((cfg.grid f).avail (s.site f t)) =
    (cfg.sf f).cells.find? (s.avail cfg f t) from rfl]
  cases (cfg.sf f).cells.find? (s.avail cfg f t) with
  | none => simp
  | some c => exact congrArg (Prod.mk _) (Store.putSite_take s c).symm

theorem bestfit_eq_grid (cfg : Config n nf) (f : Fin nf) (t : Fin n) (s : Store n nf) :
    bestfit cfg f t s =
      ((cfg.grid f).bestfit t (s.site f t)).map id (s.putSite f t) := by
  unfold bestfit Grid.bestfit
  simp only
  have scan : (cfg.grid f).cells.foldl
      (fun opt c => if (cfg.grid f).avail (s.site f t) c && c.2 < opt.2 then (some c.1, c.2)
        else opt) ((none : Option ℕ), (cfg.grid f).masksize) =
      (cfg.sf f).cells.foldl
        (fun opt c => if s.avail cfg f t c && c.2 < opt.2 then (some c.1, c.2) else opt)
        ((none : Option ℕ), cfg.masksize) := rfl
  rw [scan]
  generalize (cfg.sf f).cells.foldl _ _ = opt
  obtain ⟨_ | i, j⟩ := opt
  · simp
  · exact congrArg (Prod.mk _) (Store.putSite_take s (i, j)).symm

end Mftdma.Allocator
