import Mathlib.Tactic.MkIffOfInductiveProp
import Mftdma.Allocator.Commands

/-!
# What an accepted configuration is worth

The rounds of the allocator trust what the scripts have set up: that `masksize`
is the product of the `timeslots_` and fits a mask, that rules point at frames,
that nothing was written past an array. `command` checks little of it. With the
limits of `new-frame` the mask is right after every accepted command; the rest
depends on the arguments: `Setup.configured_iff`.

A setup that is sound is a `Config`, which is what the other modules start from.
-/

namespace Mftdma.Allocator

open Execution Machine Tdma

/-- An element of an array of the allocator. -/
inductive Element where
  | cnstRate (t : ℤ)
  | sf (f : ℕ)
  | frame (f i j : ℕ)
  | tr (t : ℤ)
  | rules (t : ℤ) (r : ℕ)

/-- A number that the arrays of terminals have. -/
def IsTerm (t : ℤ) : Prop := 0 ≤ t ∧ t < maxTerm

instance (t : ℤ) : Decidable (IsTerm t) := inferInstanceAs (Decidable (_ ∧ _))

/-- The element is one that its array has. -/
def Element.Inside : Element → Prop
  | .cnstRate t | .tr t => IsTerm t
  | .sf f => f < maxFrm
  | .frame f i j => f < maxFrm ∧ i < maxCarr ∧ j < maxSlots
  | .rules t r => IsTerm t ∧ r < maxRul

/-- The limits that `new-frame` checks. -/
@[mk_iff] structure InLimits (carriers timeslots : ℤ) : Prop where
  carriers_pos : 1 ≤ carriers
  carriers_le : carriers ≤ maxCarr
  timeslots_pos : 1 ≤ timeslots
  timeslots_le : timeslots ≤ maxSlots

instance (carriers timeslots : ℤ) : Decidable (InLimits carriers timeslots) :=
  decidable_of_iff' _ (inLimits_iff carriers timeslots)

/-- A command as a script gives it, which adds frames through `new-frame`. -/
def Command.Checked : Command → Prop
  | .addNewFrame carriers timeslots _ => InLimits carriers timeslots
  | _ => True

instance : DecidablePred Command.Checked
  | .addNewFrame .. => inferInstanceAs (Decidable (InLimits ..))
  | .newRule .. | .cra .. | .attach .. | .traceFile .. => isTrue trivial

namespace Setup

variable {Obj : Type} {lookup : String → Option Obj} {s t : Setup Obj} {c : Command}

/-- The elements that an accepted command writes. -/
def writes (s : Setup Obj) : Command → List Element
  | .addNewFrame carriers timeslots _ =>
      .sf s.nf :: (List.range carriers.toNat).flatMap fun i =>
        (List.range timeslots.toNat).map fun j => .frame s.nf i j
  | .newRule t _ _ => [.rules t (s.tr t).rulenum, .tr t]
  | .cra t _ => [.cnstRate t]
  | _ => []

/-- All that the command writes is inside its array. -/
def WritesInside (s : Setup Obj) (c : Command) : Prop := ∀ w ∈ s.writes c, w.Inside

/-- What the allocator relies on. -/
structure Configured (s : Setup Obj) : Prop where
  nf_le : s.nf ≤ maxFrm
  masksize_eq : s.masksize = ∏ f ∈ Finset.range s.nf, (s.sf f).timeslots
  masksize_le : s.masksize ≤ mskLen * 8
  rulenum_le : ∀ t, IsTerm t → (s.tr t).rulenum ≤ maxRul
  rules : ∀ t, IsTerm t → ∀ r < (s.tr t).rulenum,
    0 ≤ ((s.tr t).rules r).fp ∧ ((s.tr t).rules r).fp < s.nf

/-- The commands after which the allocator can go on: the terminal exists, the frame of a
rule is there, and there is room for what is added. -/
def Allowed (s : Setup Obj) : Command → Prop
  | .addNewFrame .. => s.nf < maxFrm
  | .newRule t _ f => IsTerm t ∧ (0 ≤ f ∧ f < s.nf) ∧ (s.tr t).rulenum < maxRul
  | .cra t _ => t < maxTerm
  | _ => True

instance (s : Setup Obj) : DecidablePred s.Allowed
  | .addNewFrame .. => inferInstanceAs (Decidable (s.nf < maxFrm))
  | .newRule .. => inferInstanceAs (Decidable (IsTerm _ ∧ _ ∧ _))
  | .cra t _ => inferInstanceAs (Decidable (t < maxTerm))
  | .attach .. | .traceFile .. => isTrue trivial

/-- A configured allocator whose frames are within the limits. -/
structure Sound (s : Setup Obj) : Prop extends Configured s where
  limits : ∀ f < s.nf, InLimits (s.sf f).carriers (s.sf f).timeslots

theorem construct_sound (memory : Setup Obj) : (construct memory).Sound where
  nf_le := Nat.zero_le _
  masksize_eq := rfl
  masksize_le := show (1 : ℤ) ≤ mskLen * 8 by decide
  rulenum_le t term := by simp [construct, show 0 ≤ t ∧ t < maxTerm from term]
  rules t term := by simp [construct, show 0 ≤ t ∧ t < maxTerm from term]
  limits _ lt := absurd lt (Nat.not_lt_zero _)

/-- The size of the mask is a positive number, as the product of numbers that are. -/
theorem Sound.masksize_pos (h : s.Sound) : 1 ≤ s.masksize := by
  rw [h.masksize_eq]
  exact Int.add_one_le_iff.mpr <| Finset.prod_pos fun f mem =>
    (h.limits f (Finset.mem_range.mp mem)).timeslots_pos

/-- No frame within the limits overflows `masksize`. -/
theorem Sound.masksize_mul (h : s.Sound) {carriers timeslots : ℤ}
    (limits : InLimits carriers timeslots) :
    int32 (s.masksize * timeslots) = s.masksize * timeslots := by
  have low := h.masksize_pos
  have ts := limits.timeslots_pos
  apply int32_of_lt
  · exact mul_nonneg (by omega) (by omega)
  · calc
      s.masksize * timeslots ≤ (mskLen * 8 : ℤ) * maxSlots :=
        mul_le_mul h.masksize_le limits.timeslots_le (by omega) (by decide)
      _ < 2 ^ 31 := by decide

/-- A frame is written to the end of the array, with all its cells. -/
theorem writesInside_addNewFrame_iff {carriers timeslots burstsize : ℤ}
    (limits : InLimits carriers timeslots) :
    s.WritesInside (.addNewFrame carriers timeslots burstsize) ↔ s.nf < maxFrm := by
  obtain ⟨-, car, -, ts⟩ := limits
  constructor
  · intro inside
    exact inside (.sf s.nf) List.mem_cons_self
  · intro room w written
    simp only [writes, List.mem_cons, List.mem_flatMap, List.mem_map, List.mem_range] at written
    obtain rfl | ⟨i, hi, j, hj, rfl⟩ := written
    · exact room
    · exact ⟨room, by omega, by omega⟩

theorem writesInside_newRule_iff {t rule f : ℤ} :
    s.WritesInside (.newRule t rule f) ↔ IsTerm t ∧ (s.tr t).rulenum < maxRul := by
  simp only [WritesInside, writes, List.forall_mem_cons, Element.Inside]
  constructor
  · rintro ⟨inside, -⟩
    exact inside
  · intro inside
    exact ⟨inside, inside.1, fun _ mem => absurd mem List.not_mem_nil⟩

theorem writesInside_cra_iff {t : ℤ} {h : ℚ} : s.WritesInside (.cra t h) ↔ IsTerm t := by
  simp [WritesInside, writes, Element.Inside]

/-- An accepted frame within the limits keeps the setup sound if there is room for it. -/
theorem Sound.addNewFrame (h : s.Sound) {carriers timeslots burstsize : ℤ}
    (limits : InLimits carriers timeslots) (room : s.nf < maxFrm)
    (accepted : (s.addNewFrame carriers timeslots burstsize).masksize ≤ mskLen * 8) :
    (s.addNewFrame carriers timeslots burstsize).Sound where
  nf_le := room
  masksize_eq := by
    show int32 (s.masksize * timeslots) = ∏ f ∈ Finset.range (s.nf + 1), _
    rw [h.masksize_mul limits, Finset.prod_range_succ, h.masksize_eq]
    congr 1
    · apply Finset.prod_congr rfl
      intro f mem
      have other : f ≠ s.nf := (Finset.mem_range.mp mem).ne
      simp [Setup.addNewFrame, other]
    · simp [Setup.addNewFrame, FrameEntry.reset]
  masksize_le := accepted
  rulenum_le := h.rulenum_le
  rules t term r lt := by
    obtain ⟨low, high⟩ := h.rules t term r lt
    refine ⟨low, high.trans ?_⟩
    show (s.nf : ℤ) < (s.nf + 1 : ℕ)
    omega
  limits f lt := by
    by_cases new : f = s.nf
    · subst new
      simpa [Setup.addNewFrame, FrameEntry.reset] using limits
    · have old : f < s.nf := by
        have : f < s.nf + 1 := lt
        omega
      simpa [Setup.addNewFrame, new] using h.limits f old

@[simp] theorem newRule_nf {t rule f : ℤ} : (s.newRule t rule f).nf = s.nf := rfl

/-- The rules of a terminal after `new-rule`. -/
theorem newRule_tr {t rule f u : ℤ} :
    (s.newRule t rule f).tr u =
      if u = t then
        { rules := Function.update (s.tr t).rules (s.tr t).rulenum ⟨rule, f⟩
          rulenum := (s.tr t).rulenum + 1
          id := t }
      else s.tr u := by
  simp [newRule, Function.update_apply]

/-- A rule for a frame that is there keeps the setup sound if there is room for it. -/
theorem Sound.newRule (h : s.Sound) {t rule f : ℤ} (frame : 0 ≤ f ∧ f < s.nf)
    (room : (s.tr t).rulenum < maxRul) : (s.newRule t rule f).Sound where
  nf_le := h.nf_le
  masksize_eq := h.masksize_eq
  masksize_le := h.masksize_le
  rulenum_le u term := by
    rw [newRule_tr]
    split_ifs
    · exact room
    · exact h.rulenum_le u term
  rules u term r lt := by
    rw [newRule_tr] at lt ⊢
    split_ifs at lt ⊢ with own
    · subst own
      by_cases new : r = (s.tr u).rulenum
      · subst new
        simpa using frame
      · have old : r < (s.tr u).rulenum := by
          have : r < (s.tr u).rulenum + 1 := lt
          omega
        simpa [new] using h.rules u term r old
    · exact h.rules u term r lt
  limits := h.limits

/-- An allowed command keeps the setup sound and writes inside the arrays. -/
theorem Sound.accept (h : s.Sound) (checked : c.Checked) (accepted : s.accept lookup c = some t)
    (allowed : s.Allowed c) : t.Sound ∧ s.WritesInside c := by
  obtain ⟨ok, rfl⟩ := accept_eq_some.mp accepted
  cases c with
  | addNewFrame carriers timeslots burstsize =>
      have short := not_lt.mp (ite_eq_ok.mp ok)
      exact ⟨h.addNewFrame checked allowed short,
        (writesInside_addNewFrame_iff checked).mpr allowed⟩
  | newRule t rule f =>
      obtain ⟨term, frame, room⟩ := allowed
      exact ⟨h.newRule frame room, writesInside_newRule_iff.mpr ⟨term, room⟩⟩
  | cra t rate =>
      rw [command] at ok ⊢
      split_ifs at ok ⊢ with range
      have term : IsTerm t := ⟨by omega, allowed⟩
      exact ⟨⟨⟨h.nf_le, h.masksize_eq, h.masksize_le, h.rulenum_le, h.rules⟩, h.limits⟩,
        writesInside_cra_iff.mpr term⟩
  | attach name | traceFile name =>
      exact ⟨⟨⟨h.nf_le, h.masksize_eq, h.masksize_le, h.rulenum_le, h.rules⟩, h.limits⟩,
        fun _ mem => absurd mem List.not_mem_nil⟩

/-- A command that writes inside the arrays and leaves a configured allocator is allowed. -/
theorem allowed_of_accept (accepted : s.accept lookup c = some t) (configured : t.Configured)
    (inside : s.WritesInside c) : s.Allowed c := by
  obtain ⟨-, rfl⟩ := accept_eq_some.mp accepted
  cases c with
  | addNewFrame carriers timeslots burstsize => exact configured.nf_le
  | newRule t rule f =>
      obtain ⟨term, room⟩ := writesInside_newRule_iff.mp inside
      have latest := configured.rules t term (s.tr t).rulenum
      simp only [command, newRule_tr, newRule_nf, if_true, Function.update_self] at latest
      exact ⟨term, latest (Nat.lt_succ_self _), room⟩
  | cra t rate => exact (writesInside_cra_iff.mp inside).2
  | attach name | traceFile name => trivial

/-- After each accepted command of a script the allocator is configured, and all that was
written is inside its array, exactly if each command names a terminal and a frame that are
there and adds only where there is room. -/
theorem configured_iff {memory : Setup Obj} {cs : List Command} (checked : ∀ c ∈ cs, c.Checked)
    (reach : run (accept lookup) (construct memory) cs = some t) :
    (Throughout (accept lookup) Configured (construct memory) cs ∧
        ∀ w ∈ outputs (accept lookup) writes (construct memory) cs, w.Inside) ↔
      Along (accept lookup) Allowed (construct memory) cs := by
  rw [forall_outputs_iff_along]
  apply throughout_and_along_iff (J := Sound) (construct_sound memory)
    (along_of_forall fun c mem _ => checked c mem) (fun _ h => h.toConfigured)
  · intro _ _ _ h checked accepted allowed
    exact h.accept checked accepted allowed
  · intro _ _ _ _ _ accepted configured inside
    exact allowed_of_accept accepted configured inside
  · exact reach

/-- Such a script leaves a sound setup. -/
theorem run_sound {memory : Setup Obj} {cs : List Command} (checked : ∀ c ∈ cs, c.Checked)
    (reach : run (accept lookup) (construct memory) cs = some t)
    (allowed : Along (accept lookup) Allowed (construct memory) cs) : t.Sound := by
  have given : Along (accept lookup) (fun _ c => c.Checked) (construct memory) cs :=
    along_of_forall fun c mem _ => checked c mem
  apply run_invariant_along (construct_sound memory) (given.and allowed) _ reach
  rintro a c b h ⟨checked, allowed⟩ accepted
  exact (h.accept checked accepted allowed).1

/-- Two frames, a rule for the second and a constant rate. -/
def script : List Command :=
  [.addNewFrame 2 16 53, .addNewFrame 1 256 106, .newRule 1099 1 1, .cra 1099 64]

theorem configured_iff_script :
    ∃ t, run (accept fun _ => none) (construct blank) script = some t ∧
      Throughout (accept fun _ => none) Configured (construct blank) script ∧
      ∀ w ∈ outputs (accept fun _ => none) writes (construct blank) script, w.Inside := by
  obtain ⟨t, reach⟩ : ∃ t, run (accept fun _ => none) (construct blank) script = some t := ⟨_, rfl⟩
  refine ⟨t, reach, ?_⟩
  apply (configured_iff (by decide) reach).mpr
  decide

/-- A constant rate is written past the end of its array, and a rule points past the
frames. -/
theorem not_configured :
    (∃ t, run (accept fun _ => none) (construct blank) [.cra 1100 64] = some t ∧
      ¬ ∀ w ∈ outputs (accept fun _ => none) writes (construct blank) [.cra 1100 64], w.Inside) ∧
    ∃ t, run (accept fun _ => none) (construct blank) [.newRule 0 1 7] = some t ∧
      ¬ Throughout (accept fun _ => none) Configured (construct blank) [.newRule 0 1 7] := by
  refine ⟨⟨_, rfl, fun inside => ?_⟩, ⟨_, rfl, fun configured => ?_⟩⟩
  · have last : IsTerm 1100 := inside (.cnstRate 1100) List.mem_cons_self
    revert last
    decide
  · have last := (configured.2 _ rfl).rules 0 (by decide) 0 Nat.zero_lt_one
    revert last
    decide

end Setup

section config

variable {Obj : Type} {s : Setup Obj} {n : ℕ}

theorem InLimits.toNat {carriers timeslots : ℤ} (h : InLimits carriers timeslots) :
    (1 ≤ carriers.toNat ∧ carriers.toNat ≤ maxCarr) ∧
      1 ≤ timeslots.toNat ∧ timeslots.toNat ≤ maxSlots := by
  obtain ⟨_, _, _, _⟩ := h
  omega

namespace Setup.Sound

/-- A frame of the setup with its limits. -/
def frame (h : s.Sound) (f : Fin s.nf) : Frame where
  carriers := (s.sf f).carriers.toNat
  timeslots := (s.sf f).timeslots.toNat
  burstsize := (s.sf f).burstsize.toNat
  carriers_pos := (h.limits f f.isLt).toNat.1.1
  carriers_le := (h.limits f f.isLt).toNat.1.2
  timeslots_pos := (h.limits f f.isLt).toNat.2.1
  timeslots_le := (h.limits f f.isLt).toNat.2.2

theorem prod_timeslots (h : s.Sound) :
    ((∏ f, (h.frame f).timeslots : ℕ) : ℤ) = s.masksize := by
  rw [h.masksize_eq, Finset.prod_range, Nat.cast_prod]
  apply Finset.prod_congr rfl
  intro f _
  have pos := (h.limits f f.isLt).timeslots_pos
  exact Int.toNat_of_nonneg (by omega)

theorem prod_timeslots_le (h : s.Sound) : ∏ f, (h.frame f).timeslots ≤ mskLen * 8 := by
  have le := h.masksize_le
  rw [← h.prod_timeslots] at le
  exact_mod_cast le

theorem isTerm (terms : n ≤ maxTerm) (t : Fin n) : IsTerm (t : ℕ) := by
  have := t.isLt
  constructor
  · omega
  · omega

/-- The frame that a rule points at is one of the setup. -/
theorem fp_lt (h : s.Sound) (terms : n ≤ maxTerm) (t : Fin n) (r : Fin (s.tr (t : ℕ)).rulenum) :
    ((s.tr (t : ℕ)).rules r).fp.toNat < s.nf := by
  have inside := h.rules (t : ℕ) (isTerm terms t) r r.isLt
  omega

/-- The configuration of `n` active terminals that the commands have set up. -/
def config (h : s.Sound) (terms : n ≤ maxTerm) (mode layout slThreshold : ℤ)
    (nonneg : 0 ≤ s.frameDuration) : Config n s.nf where
  sf := h.frame
  rules t := List.ofFn fun r : Fin (s.tr (t : ℕ)).rulenum =>
    ⟨((s.tr (t : ℕ)).rules r).rule, ((s.tr (t : ℕ)).rules r).fp.toNat, h.fp_lt terms t r⟩
  mode := mode
  layout := layout
  slThreshold := slThreshold
  frameDuration := s.frameDuration
  frameDuration_nonneg := nonneg
  masksize_le := h.prod_timeslots_le

/-- Its mask is as long as `masksize` says, and every terminal has the rules that it was
given. -/
theorem config_spec (h : s.Sound) (terms : n ≤ maxTerm) (mode layout slThreshold : ℤ)
    (nonneg : 0 ≤ s.frameDuration) :
    ((h.config terms mode layout slThreshold nonneg).masksize : ℤ) = s.masksize ∧
      ∀ t : Fin n, ((h.config terms mode layout slThreshold nonneg).rules t).length =
        (s.tr (t : ℕ)).rulenum :=
  ⟨h.prod_timeslots, fun _ => List.length_ofFn⟩

end Setup.Sound

/-- An allowed script sets up a configuration that the allocator can run, whatever the
number of its active terminals. -/
theorem exists_config {lookup : String → Option Obj} {memory t : Setup Obj} {cs : List Command}
    (checked : ∀ c ∈ cs, c.Checked)
    (reach : run (Setup.accept lookup) (.construct memory) cs = some t)
    (allowed : Along (Setup.accept lookup) Setup.Allowed (.construct memory) cs)
    (terms : n ≤ maxTerm) (nonneg : 0 ≤ t.frameDuration) :
    ∃ cfg : Config n t.nf, (cfg.masksize : ℤ) = t.masksize ∧
      ∀ u, (cfg.rules u).length = (t.tr (u : ℕ)).rulenum ∧ (cfg.rules u).length ≤ maxRul := by
  have h := Setup.run_sound checked reach allowed
  obtain ⟨masksize, rules⟩ := h.config_spec terms slotMode firstFit 0 nonneg
  refine ⟨h.config terms slotMode firstFit 0 nonneg, masksize, fun u => ⟨rules u, ?_⟩⟩
  rw [rules u]
  exact h.rulenum_le (u : ℕ) (Setup.Sound.isTerm terms u)

end config

end Mftdma.Allocator
