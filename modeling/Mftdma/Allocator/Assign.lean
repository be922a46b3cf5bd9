import Mftdma.Allocator.Superframe
import Mftdma.Data.Cyclic
import Mftdma.Execution.Loop

/-!
# `AllocatorMFTDMA::assign_timeslot`

One pass of the `while` loop looks for a terminal with a positive deficit, walks
its rule list for a frame that accepts the burst, and then either appends a
burst descriptor or passes the turn on. The locals `frame` and `offset` are
state of the loop: the code neither initialises them nor clears them between
passes, and a rule list that is empty or all skipped leaves them untouched.

`Pass` is the inversion lemma of the loop body. Every result about the loop is
derived from its four cases, and none unfolds the body again.
-/

namespace Mftdma.Allocator

open Cyclic Execution

variable {n nf : ℕ}

/-- The local pointer `frame`. `wild` stands for any other memory, known only by
the value read through it as `burstsize_`. -/
inductive FramePtr (nf : ℕ) where
  | null
  | sf (f : Fin nf)
  | wild (burstsize : ℤ)
deriving DecidableEq

structure BurstDes (n : ℕ) where
  assignmentId : Fin n
  offset : ℚ
  size : ℤ
deriving DecidableEq

/-- The fields of `AllocatorMFTDMA` that change from one superframe to the next. -/
structure AllocatorMFTDMA (n nf : ℕ) where
  store : Store n nf
  deficit : Fin n → ℤ
  a : Fin n → ℤ
  freeslots : ℕ
  leftToCheck : ℕ
  curTerm : Fin n
  cnstRate : Fin n → ℕ
  reqvRate : Fin n → ℕ
  reqvVolume : Fin n → ℕ
  utilization : ℤ
  load : ℤ

/-- State at the head of the loop: the allocator, the descriptors written to the
TBTP so far, and the two locals. -/
structure Assign (n nf : ℕ) extends AllocatorMFTDMA n nf where
  bdes : List (BurstDes n)
  frame : FramePtr nf
  offset : ℚ

/-- `frame->burstsize_` -/
def Config.burstsize (cfg : Config n nf) : FramePtr nf → ℤ
  | .null => 0
  | .sf f => (cfg.sf f).burstsize
  | .wild b => b

/-- The inner `do … while (deficit[cur_term] <= 0 && left_to_check)`, which is
entered with a positive counter. -/
def seekTerm (deficit : Fin n → ℤ) : ℕ → Fin n → ℕ × Fin n
  | 0, cur => (0, cur)
  | left + 1, cur =>
      if deficit (advance cur 1) ≤ 0 ∧ left ≠ 0 then seekTerm deficit left (advance cur 1)
      else (left, advance cur 1)

/-- Counter and terminal after the search for a positive request. -/
def Assign.pick (s : Assign n nf) : ℕ × Fin n :=
  if s.deficit s.curTerm ≤ 0 then seekTerm s.deficit s.leftToCheck s.curTerm
  else (s.leftToCheck, s.curTerm)

/-- What the rule loop reads and writes. -/
structure Search (n nf : ℕ) where
  frame : FramePtr nf
  offset : ℚ
  store : Store n nf

/-- The call that `layout_` selects; any other value calls nothing. -/
def fit (cfg : Config n nf) (f : Fin nf) (t : Fin n) (s : Store n nf) : Option (ℚ × Store n nf) :=
  if cfg.layout = firstFit then some (firstfit cfg f t s)
  else if cfg.layout = bestFit then some (bestfit cfg f t s)
  else none

/-- The rule loop of the terminal `t`. -/
def seekFrame (cfg : Config n nf) (t : Fin n) (deficit : ℤ) :
    List (Rule nf) → Search n nf → Search n nf
  | [], w => w
  | r :: rs, w =>
      -- the SMALL rule: `continue` leaves `frame` and `offset` as they are
      if r.rule = 1 ∧ cfg.slThreshold < deficit then seekFrame cfg t deficit rs w
      else
        match fit cfg r.fp t w.store with
        | some (offset, store) =>
            if 0 ≤ offset then ⟨.sf r.fp, offset, store⟩
            else seekFrame cfg t deficit rs ⟨.null, offset, store⟩
        | none => seekFrame cfg t deficit rs ⟨.null, w.offset, w.store⟩

/-- The branch `if (frame)`: a descriptor is appended. -/
def Assign.grant (cfg : Config n nf) (s : Assign n nf) (left : ℕ) (t : Fin n)
    (w : Search n nf) : Assign n nf :=
  { s with
    store := w.store
    frame := w.frame
    offset := w.offset
    freeslots := s.freeslots - 1
    deficit := Function.update s.deficit t (s.deficit t - cfg.burstsize w.frame)
    bdes := s.bdes ++ [⟨t, w.offset, cfg.burstsize w.frame⟩]
    a := Function.update s.a t (s.a t + cfg.burstsize w.frame)
    leftToCheck := if cfg.mode = slotMode then n else left
    curTerm := if cfg.mode = slotMode then advance t 1 else t }

/-- The branch `else`: no luck, next customer please. -/
def Assign.refuse (cfg : Config n nf) (s : Assign n nf) (left : ℕ) (t : Fin n)
    (w : Search n nf) : Assign n nf :=
  { s with
    store := w.store
    frame := w.frame
    offset := w.offset
    leftToCheck := if cfg.mode = contMode then left - 1 else left
    curTerm := if cfg.mode = contMode ∨ cfg.mode = slotMode then advance t 1 else t }

/-- The rule loop as the pass that starts in `s` runs it. -/
def Assign.search (cfg : Config n nf) (s : Assign n nf) : Search n nf :=
  seekFrame cfg s.pick.2 (s.deficit s.pick.2) (cfg.rules s.pick.2) ⟨s.frame, s.offset, s.store⟩

/-- One pass of the loop. -/
def Assign.body (cfg : Config n nf) (s : Assign n nf) : Assign n nf :=
  if s.pick.1 = 0 then { s with leftToCheck := 0, curTerm := s.pick.2 }
  else if (s.search cfg).frame = .null then s.refuse cfg s.pick.1 s.pick.2 (s.search cfg)
  else s.grant cfg s.pick.1 s.pick.2 (s.search cfg)

/-- `while( freeslots && left_to_check ) { … }` -/
def assignTimeslot (cfg : Config n nf) : Loop (Assign n nf) where
  guard s := s.freeslots != 0 && s.leftToCheck != 0
  body := Assign.body cfg

theorem guard_iff {cfg : Config n nf} {s : Assign n nf} :
    (assignTimeslot cfg).guard s = true ↔ s.freeslots ≠ 0 ∧ s.leftToCheck ≠ 0 := by
  simp [assignTimeslot]

/-- `init_request_queues` -/
def AllocatorMFTDMA.initRequestQueues (s : AllocatorMFTDMA n nf) (reqVec : Fin n → ℕ) :
    AllocatorMFTDMA n nf :=
  { s with
    utilization := s.utilization + ∑ i, s.deficit i
    deficit := fun i => s.deficit i + reqVec i
    load := s.load + ∑ i, (reqVec i : ℤ)
    leftToCheck := n }

/-- Entry of `assign_timeslot` on a TBTP that holds `bdes`, with whatever the
two locals contain. -/
def AllocatorMFTDMA.enter (s : AllocatorMFTDMA n nf) (bdes : List (BurstDes n))
    (frame : FramePtr nf) (offset : ℚ) : Assign n nf :=
  { s with bdes := bdes, frame := frame, offset := offset }

/-- A terminal that could still be served: a positive deficit and an eligible
rule whose frame has a free cell compatible with its mask. -/
def Assign.Feasible (cfg : Config n nf) (s : Assign n nf) (t : Fin n) : Prop :=
  0 < s.deficit t ∧
    ∃ r ∈ cfg.rules t, cfg.Eligible (s.deficit t) r ∧ s.store.Usable cfg r.fp t

instance (cfg : Config n nf) (s : Assign n nf) (t : Fin n) : Decidable (s.Feasible cfg t) :=
  inferInstanceAs (Decidable (_ ∧ ∃ r ∈ cfg.rules t, _))

/-- Both layouts the code knows. -/
def Config.KnownLayout (cfg : Config n nf) : Prop :=
  cfg.layout = firstFit ∨ cfg.layout = bestFit

/-- Both modes the code knows. -/
def Config.KnownMode (cfg : Config n nf) : Prop :=
  cfg.mode = slotMode ∨ cfg.mode = contMode

section pick

/-- The search passes `m` terminals, none with a positive deficit, and stops at
a positive one unless the counter is used up. -/
private theorem seekTerm_spec (deficit : Fin n → ℤ) (left : ℕ) (cur : Fin n)
    (start : deficit cur ≤ 0) :
    ∃ m ≤ left, seekTerm deficit left cur = (left - m, advance cur m) ∧
      (left ≠ 0 → 0 < m) ∧ (∀ j < m, deficit (advance cur j) ≤ 0) ∧
      (left - m ≠ 0 → 0 < deficit (advance cur m)) := by
  induction left generalizing cur with
  | zero => exact ⟨0, le_rfl, by simp [seekTerm], by simp, by simp, by simp⟩
  | succ left ih =>
      by_cases more : deficit (advance cur 1) ≤ 0 ∧ left ≠ 0
      · obtain ⟨m, bound, result, -, skipped, stop⟩ := ih (advance cur 1) more.1
        refine ⟨m + 1, by omega, ?_, by omega, ?_, ?_⟩
        · simp only [seekTerm, if_pos more, result, advance_advance]
          rw [Nat.add_comm 1 m, Nat.add_sub_add_right]
        · intro j hj
          cases j with
          | zero => simpa using start
          | succ j => simpa [Nat.add_comm 1 j] using skipped j (by omega)
        · intro rest
          have positive := stop (by omega)
          rwa [advance_advance, Nat.add_comm 1 m] at positive
      · refine ⟨1, by omega, by simp only [seekTerm, if_neg more]; simp, by simp, ?_, ?_⟩
        · intro j hj
          obtain rfl : j = 0 := by omega
          simpa using start
        · intro rest
          by_contra nonpositive
          exact more ⟨not_lt.mp nonpositive, by simpa using rest⟩

theorem Assign.pick_spec (s : Assign n nf) :
    ∃ m ≤ s.leftToCheck, s.pick = (s.leftToCheck - m, advance s.curTerm m) ∧
      (∀ j < m, s.deficit (advance s.curTerm j) ≤ 0) ∧
      (s.pick.1 ≠ 0 → 0 < s.deficit s.pick.2) := by
  by_cases start : s.deficit s.curTerm ≤ 0
  · obtain ⟨m, bound, result, -, skipped, stop⟩ := seekTerm_spec s.deficit s.leftToCheck _ start
    have picked : s.pick = (s.leftToCheck - m, advance s.curTerm m) := by
      rw [Assign.pick, if_pos start, result]
    refine ⟨m, bound, picked, skipped, ?_⟩
    rw [picked]
    exact stop
  · have picked : s.pick = (s.leftToCheck, s.curTerm) := by rw [Assign.pick, if_neg start]
    refine ⟨0, Nat.zero_le _, by simp [picked], by simp, fun _ => ?_⟩
    rw [picked]
    exact not_le.mp start

theorem Assign.pick_of_pos {s : Assign n nf} (h : 0 < s.deficit s.curTerm) :
    s.pick = (s.leftToCheck, s.curTerm) := by
  rw [Assign.pick, if_neg (not_le.mpr h)]

end pick

section seek

/-- What the rule loop can end with. -/
inductive Sought (cfg : Config n nf) (t : Fin n) (deficit : ℤ) (rs : List (Rule nf))
    (w : Search n nf) : Search n nf → Prop
  | skipped (none : ∀ r ∈ rs, ¬ cfg.Eligible deficit r) : Sought cfg t deficit rs w w
  | found (r : Rule nf) (i j : ℕ) (mem : r ∈ rs) (eligible : cfg.Eligible deficit r)
      (cell : (i, j) ∈ (cfg.sf r.fp).cells) (free : w.store.avail cfg r.fp t (i, j) = true) :
      Sought cfg t deficit rs w
        ⟨.sf r.fp, cfg.slotOffset r.fp j, w.store.take cfg r.fp t i j⟩
  | refused (offset : ℚ) (some : ∃ r ∈ rs, cfg.Eligible deficit r)
      (full : cfg.KnownLayout → ∀ r ∈ rs, cfg.Eligible deficit r →
        ¬ w.store.Usable cfg r.fp t) :
      Sought cfg t deficit rs w ⟨.null, offset, w.store⟩

theorem fit_fits {cfg : Config n nf} {f : Fin nf} {t : Fin n} {s : Store n nf}
    {result : ℚ × Store n nf} (h : fit cfg f t s = some result) : Fits cfg f t s result := by
  unfold fit at h
  split at h
  · cases h
    exact firstfit_fits cfg f t s
  · split at h
    · cases h
      exact bestfit_fits cfg f t s
    · cases h

theorem fit_eq_none_iff {cfg : Config n nf} {f : Fin nf} {t : Fin n} {s : Store n nf} :
    fit cfg f t s = none ↔ ¬ cfg.KnownLayout := by
  unfold fit Config.KnownLayout
  split_ifs with first best
  · simp [first]
  · simp [best]
  · simp [first, best]

variable {cfg : Config n nf} {t : Fin n} {deficit : ℤ} {r : Rule nf} {rs : List (Rule nf)}
  {w w' : Search n nf}

theorem Sought.cons_of_not_eligible (h : Sought cfg t deficit rs w w')
    (skip : ¬ cfg.Eligible deficit r) : Sought cfg t deficit (r :: rs) w w' := by
  cases h with
  | skipped none => exact .skipped (List.forall_mem_cons.mpr ⟨skip, none⟩)
  | found r' i j mem eligible cell free =>
      exact .found r' i j (List.mem_cons_of_mem r mem) eligible cell free
  | refused offset some full =>
      obtain ⟨r', mem, eligible⟩ := some
      exact .refused offset ⟨r', List.mem_cons_of_mem r mem, eligible⟩ fun known =>
        List.forall_mem_cons.mpr ⟨fun bad => absurd bad skip, full known⟩

theorem Sought.cons_of_refused {offset : ℚ}
    (h : Sought cfg t deficit rs ⟨.null, offset, w.store⟩ w') (eligible : cfg.Eligible deficit r)
    (full : cfg.KnownLayout → ¬ w.store.Usable cfg r.fp t) :
    Sought cfg t deficit (r :: rs) w w' := by
  have here : ∃ x ∈ r :: rs, cfg.Eligible deficit x := ⟨r, List.mem_cons_self, eligible⟩
  cases h with
  | skipped none =>
      exact .refused offset here fun known => List.forall_mem_cons.mpr
        ⟨fun _ => full known, fun x hx ok => absurd ok (none x hx)⟩
  | found r' i j mem eligible cell free =>
      exact .found r' i j (List.mem_cons_of_mem r mem) eligible cell free
  | refused offset _ rest =>
      exact .refused offset here fun known => List.forall_mem_cons.mpr
        ⟨fun _ => full known, rest known⟩

theorem seekFrame_sought (cfg : Config n nf) (t : Fin n) (deficit : ℤ) (rs : List (Rule nf))
    (w : Search n nf) : Sought cfg t deficit rs w (seekFrame cfg t deficit rs w) := by
  induction rs generalizing w with
  | nil => exact .skipped (by simp)
  | cons r rs ih =>
      by_cases small : r.rule = 1 ∧ cfg.slThreshold < deficit
      · rw [seekFrame, if_pos small]
        exact (ih w).cons_of_not_eligible (cfg.not_eligible_iff.mpr small)
      · have eligible : cfg.Eligible deficit r := by
          by_contra bad
          exact small (cfg.not_eligible_iff.mp bad)
        rw [seekFrame, if_neg small]
        cases hfit : fit cfg r.fp t w.store with
        | none =>
            exact (ih _).cons_of_refused eligible fun known =>
              absurd known (fit_eq_none_iff.mp hfit)
        | some result =>
            cases fit_fits hfit with
            | taken i j cell free =>
                simp only [if_pos (cfg.slotOffset_nonneg r.fp j)]
                exact .found r i j List.mem_cons_self eligible cell free
            | refused full =>
                simp only [if_neg (show ¬ (0 : ℚ) ≤ -1 by norm_num)]
                exact (ih _).cons_of_refused eligible fun _ => full

end seek

/-- The branch of the source that the loop can take without a slot: the rule
loop skips every rule of the picked terminal, so the `frame` of an earlier pass
(or of an uninitialised local) is taken for the result of the search. -/
def Assign.Stale (cfg : Config n nf) (s : Assign n nf) : Prop :=
  s.pick.1 ≠ 0 ∧ s.frame ≠ .null ∧
    ∀ r ∈ cfg.rules s.pick.2, ¬ cfg.Eligible (s.deficit s.pick.2) r

instance (cfg : Config n nf) (s : Assign n nf) : Decidable (s.Stale cfg) :=
  inferInstanceAs (Decidable (_ ∧ _ ∧ ∀ r ∈ cfg.rules s.pick.2, _))

/-- Everything one pass of the loop can do. -/
inductive Pass (cfg : Config n nf) (s : Assign n nf) : Assign n nf → Prop
  /-- the counter ran out while looking for a positive deficit -/
  | exhausted (out : s.pick.1 = 0) : Pass cfg s { s with leftToCheck := 0, curTerm := s.pick.2 }
  /-- the picked terminal takes a cell -/
  | granted (r : Rule nf) (i j : ℕ) (some : s.pick.1 ≠ 0) (mem : r ∈ cfg.rules s.pick.2)
      (eligible : cfg.Eligible (s.deficit s.pick.2) r) (cell : (i, j) ∈ (cfg.sf r.fp).cells)
      (free : s.store.avail cfg r.fp s.pick.2 (i, j) = true) :
      Pass cfg s (s.grant cfg s.pick.1 s.pick.2
        ⟨.sf r.fp, cfg.slotOffset r.fp j, s.store.take cfg r.fp s.pick.2 i j⟩)
  /-- a descriptor is appended for a frame that was not searched -/
  | stale (stale : s.Stale cfg) :
      Pass cfg s (s.grant cfg s.pick.1 s.pick.2 ⟨s.frame, s.offset, s.store⟩)
  /-- no frame accepts the picked terminal -/
  | refused (offset : ℚ) (some : s.pick.1 ≠ 0)
      (full : cfg.KnownLayout → ¬ s.Feasible cfg s.pick.2) :
      Pass cfg s (s.refuse cfg s.pick.1 s.pick.2 ⟨.null, offset, s.store⟩)

theorem Assign.body_of_stale {cfg : Config n nf} {s : Assign n nf} (h : s.Stale cfg) :
    s.body cfg = s.grant cfg s.pick.1 s.pick.2 ⟨s.frame, s.offset, s.store⟩ := by
  obtain ⟨some, frame, none⟩ := h
  have same : s.search cfg = ⟨s.frame, s.offset, s.store⟩ := by
    have sought := seekFrame_sought cfg s.pick.2 (s.deficit s.pick.2) (cfg.rules s.pick.2)
      ⟨s.frame, s.offset, s.store⟩
    unfold Assign.search
    generalize seekFrame _ _ _ _ _ = w at sought
    cases sought with
    | skipped _ => rfl
    | found r i j mem eligible cell free => exact absurd eligible (none r mem)
    | refused offset some full =>
        obtain ⟨r, mem, eligible⟩ := some
        exact absurd eligible (none r mem)
  rw [Assign.body, if_neg some, same, if_neg frame]

theorem Assign.body_pass (cfg : Config n nf) (s : Assign n nf) : Pass cfg s (s.body cfg) := by
  unfold Assign.body
  split
  · next out => exact .exhausted out
  · next some =>
      have sought := seekFrame_sought cfg s.pick.2 (s.deficit s.pick.2) (cfg.rules s.pick.2)
        ⟨s.frame, s.offset, s.store⟩
      change Sought _ _ _ _ _ (s.search cfg) at sought
      generalize s.search cfg = w at sought ⊢
      cases sought with
      | skipped none =>
          split
          · next null =>
              change s.frame = .null at null
              rw [null]
              exact .refused s.offset some fun _ ⟨_, r, mem, eligible, _⟩ => none r mem eligible
          · next frame => exact .stale ⟨some, frame, none⟩
      | found r i j mem eligible cell free =>
          rw [if_neg (by simp)]
          exact .granted r i j some mem eligible cell free
      | refused offset _ full =>
          rw [if_pos rfl]
          exact .refused offset some fun known ⟨_, r, mem, eligible, usable⟩ =>
            full known r mem eligible usable

end Mftdma.Allocator
