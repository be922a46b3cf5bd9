import Mftdma.Allocator.Tbtp
import Mftdma.Tdma.Slots

/-!
# The commands that set up the allocator

A script configures an `AllocatorMFTDMA` with `add-new-frame`, `new-rule`,
`cra_`, `attach` and `trace-file`. `command` takes their arguments as `atoi` and
`atof` have read them and answers `TCL_OK` or `TCL_ERROR`.

`cra_` checks its arguments before it writes. The other commands that can fail
write first: a rejected frame stays in the superframe, and a name that does not
exist clears the pointer. `Setup.command_unchanged_iff` says when an error
leaves everything as it was.
-/

namespace Mftdma.Allocator

open Execution Machine Tdma

/-- What `command` returns. -/
inductive Tcl where
  | ok
  | error
deriving DecidableEq

/-- An element of `sf`, with the arguments of `add-new-frame` as they were given. -/
structure FrameEntry where
  carriers : ℤ
  timeslots : ℤ
  burstsize : ℤ
  slots : ℤ
  frame : ℕ → ℕ → ℤ

/-- `Frame::reset` -/
def FrameEntry.reset (fr : FrameEntry) : FrameEntry :=
  { fr with
    frame := fun i j =>
      if i < fr.carriers ∧ j < fr.timeslots then nothingToSend else fr.frame i j }

/-- An element of `rules`, whose `fp` is the address of `sf[fp]`. -/
structure RuleEntry where
  rule : ℤ
  fp : ℤ

/-- An element of `tr` -/
structure TermEntry where
  rules : ℕ → RuleEntry
  rulenum : ℕ
  id : ℤ

/-- The fields of an `AllocatorMFTDMA` that the commands write. The arrays are indexed
like memory: nothing keeps an index within them. -/
structure Setup (Obj : Type) where
  masksize : ℤ
  nf : ℕ
  sf : ℕ → FrameEntry
  tr : ℤ → TermEntry
  cnstRate : ℤ → ℤ
  frameDuration : ℚ
  mac : Option Obj
  bt : Option Obj

/-- The commands, with the values of their arguments. -/
inductive Command where
  | addNewFrame (carriers timeslots burstsize : ℤ)
  | newRule (term rule frame : ℤ)
  | cra (term : ℤ) (rate : ℚ)
  | attach (name : String)
  | traceFile (name : String)

/-- What an `unsigned` holds after the conversion of a `double`. -/
def unsigned (x : ℚ) : ℤ := x.num.tdiv x.den % 2 ^ 32

namespace Setup

variable {Obj : Type} {lookup : String → Option Obj} {s t : Setup Obj} {c : Command}

/-- What the constructors make of the memory that they find. -/
def construct (memory : Setup Obj) : Setup Obj :=
  { memory with
    masksize := 1
    nf := 0
    tr := fun t =>
      if 0 ≤ t ∧ t < maxTerm then { memory.tr t with rulenum := 0 } else memory.tr t
    cnstRate := fun t => if 0 ≤ t ∧ t < maxTerm then 0 else memory.cnstRate t
    bt := none }

/-- `add-new-frame`, up to the check of `masksize`. -/
def addNewFrame (s : Setup Obj) (carriers timeslots burstsize : ℤ) : Setup Obj :=
  let fr : FrameEntry :=
    { s.sf s.nf with
      carriers := carriers
      timeslots := timeslots
      burstsize := burstsize
      slots := int32 (carriers * timeslots) }
  { s with
    sf := Function.update s.sf s.nf fr.reset
    masksize := int32 (s.masksize * timeslots)
    nf := s.nf + 1 }

/-- `new-rule` -/
def newRule (s : Setup Obj) (t rule f : ℤ) : Setup Obj :=
  let r := (s.tr t).rulenum
  { s with
    tr := Function.update s.tr t
      { rules := Function.update (s.tr t).rules r ⟨rule, f⟩
        rulenum := r + 1
        id := t } }

/-- `command`, where `lookup` is `TclObject::lookup`. -/
def command (lookup : String → Option Obj) (s : Setup Obj) : Command → Setup Obj × Tcl
  | .attach name =>
      ({ s with mac := lookup name }, if lookup name = none then .error else .ok)
  | .traceFile name =>
      ({ s with bt := lookup name }, if lookup name = none then .error else .ok)
  | .cra t h =>
      if t < 0 ∨ maxTerm < t then (s, .error)
      else if h < 0 then (s, .error)
      else
        let rate := unsigned (s.frameDuration * h * 125)
        ({ s with cnstRate := Function.update s.cnstRate t rate }, .ok)
  | .addNewFrame carriers timeslots burstsize =>
      let added := s.addNewFrame carriers timeslots burstsize
      (added, if mskLen * 8 < added.masksize then .error else .ok)
  | .newRule t rule f => (s.newRule t rule f, .ok)

/-- A command that returns `TCL_OK`. -/
def accept (lookup : String → Option Obj) (s : Setup Obj) (c : Command) : Option (Setup Obj) :=
  if (s.command lookup c).2 = .ok then some (s.command lookup c).1 else none

/-- An error of the command leaves no trace: it checks first, or what it clears is clear. -/
def Atomic (s : Setup Obj) : Command → Prop
  | .addNewFrame .. => False
  | .attach _ => s.mac = none
  | .traceFile _ => s.bt = none
  | .cra .. | .newRule .. => True

theorem accept_eq_some : s.accept lookup c = some t ↔
    (s.command lookup c).2 = .ok ∧ (s.command lookup c).1 = t := by
  rw [accept, Option.ite_none_right_eq_some, Option.some.injEq]

/-- A command that checks a condition after it has written. -/
theorem ite_eq_error {p : Prop} [Decidable p] : (if p then Tcl.error else .ok) = .error ↔ p := by
  simp

theorem ite_eq_ok {p : Prop} [Decidable p] : (if p then Tcl.error else .ok) = .ok ↔ ¬ p := by
  simp

/-- A new frame is counted, accepted or not. -/
theorem addNewFrame_ne (s : Setup Obj) (carriers timeslots burstsize : ℤ) :
    s.addNewFrame carriers timeslots burstsize ≠ s := by
  intro same
  have counted : s.nf + 1 = s.nf := congrArg Setup.nf same
  omega

theorem update_mac_eq_self {mac : Option Obj} : { s with mac := mac } = s ↔ s.mac = mac := by
  cases s
  simp [eq_comm]

theorem update_bt_eq_self {bt : Option Obj} : { s with bt := bt } = s ↔ s.bt = bt := by
  cases s
  simp [eq_comm]

/-- A command that fails leaves the allocator as it was exactly if it is not
`add-new-frame`, nor an `attach` or a `trace-file` that clears a pointer. -/
theorem command_unchanged_iff (failed : (s.command lookup c).2 = .error) :
    (s.command lookup c).1 = s ↔ s.Atomic c := by
  cases c with
  | addNewFrame carriers timeslots burstsize =>
      exact iff_of_false (s.addNewFrame_ne carriers timeslots burstsize) not_false
  | newRule t rule f => cases failed
  | cra t h =>
      apply iff_of_true _ trivial
      rw [command] at failed ⊢
      split_ifs at failed ⊢
      · rfl
      · rfl
  | attach name =>
      have missing : lookup name = none := ite_eq_error.mp failed
      rw [command, missing]
      exact update_mac_eq_self
  | traceFile name =>
      have missing : lookup name = none := ite_eq_error.mp failed
      rw [command, missing]
      exact update_bt_eq_self

/-- Memory that is all zeros. -/
def blank : Setup Unit where
  masksize := 0
  nf := 0
  sf _ := ⟨0, 0, 0, 0, fun _ _ => 0⟩
  tr _ := ⟨fun _ => ⟨0, 0⟩, 0, 0⟩
  cnstRate _ := 0
  frameDuration := 1
  mac := none
  bt := none

/-- `cra_` for a terminal that does not exist. -/
theorem command_unchanged_iff_cra :
    ((construct blank).command (fun _ => none) (.cra (-1) 64)).2 = .error ∧
      ((construct blank).command (fun _ => none) (.cra (-1) 64)).1 = construct blank :=
  ⟨rfl, (command_unchanged_iff rfl).mpr trivial⟩

/-- The frame that makes the mask too long is rejected and stays. -/
theorem not_command_unchanged :
    ∃ s, run (accept fun _ => none) (construct blank)
        [.addNewFrame 1 256 53, .addNewFrame 1 16 53] = some s ∧
      (s.command (fun _ => none) (.addNewFrame 1 2 53)).2 = .error ∧
      (s.command (fun _ => none) (.addNewFrame 1 2 53)).1 ≠ s :=
  ⟨_, rfl, rfl, addNewFrame_ne _ 1 2 53⟩

end Setup

end Mftdma.Allocator
