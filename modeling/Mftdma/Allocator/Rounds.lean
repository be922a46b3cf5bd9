import Mftdma.Allocator.Accounting

/-!
# Inside a round

`InRound` names the states that the three loops of one `allocation` come through,
whether or not the round ends, and `InRound.invariant` is the induction over them.

A terminal gets a burst only while its deficit is positive, so no grant takes the
deficit below minus the size of the burst. The accounts of the round turn this
into a bound on what a terminal can get beyond its requests.
-/

namespace Mftdma.Allocator

open Execution

variable {n nf : ℕ}

/-- The head of the first loop. -/
def AllocatorMFTDMA.enterCra (cfg : Config n nf) (l : Locals nf) (s : AllocatorMFTDMA n nf) :
    Assign n nf :=
  ((s.resetAllocator cfg).initRequestQueues s.cnstRate).enter [] l.frame l.offset

/-- The head of the second loop, after `cra`. -/
def Assign.enterRbdc (l : Locals nf) (cra : Assign n nf) : Assign n nf :=
  (cra.initRequestQueues cra.reqvRate).enter cra.bdes l.frame l.offset

/-- The head of the third loop, after `rbdc`. -/
def Assign.enterVbdc (l : Locals nf) (rbdc : Assign n nf) : Assign n nf :=
  (rbdc.initRequestQueues rbdc.reqvVolume).clearVolume.enter rbdc.bdes l.frame l.offset

/-- States at the heads of the three loops of an `allocation` that starts in `s`. -/
inductive InRound (cfg : Config n nf) (locals : Fin 3 → Locals nf) (s : AllocatorMFTDMA n nf) :
    Assign n nf → Prop
  | cra {a : Assign n nf} (visit : (assignTimeslot cfg).Visits (s.enterCra cfg (locals 0)) a) :
      InRound cfg locals s a
  | rbdc {a b : Assign n nf} (cra : (assignTimeslot cfg).Returns (s.enterCra cfg (locals 0)) a)
      (visit : (assignTimeslot cfg).Visits (a.enterRbdc (locals 1)) b) : InRound cfg locals s b
  | vbdc {a b c : Assign n nf} (cra : (assignTimeslot cfg).Returns (s.enterCra cfg (locals 0)) a)
      (rbdc : (assignTimeslot cfg).Returns (a.enterRbdc (locals 1)) b)
      (visit : (assignTimeslot cfg).Visits (b.enterVbdc (locals 2)) c) : InRound cfg locals s c

variable {cfg : Config n nf} {locals : Fin 3 → Locals nf} {s : AllocatorMFTDMA n nf}
  {a v : Assign n nf}

/-- What every pass and the two changes of stage keep holds throughout a round. -/
theorem InRound.invariant {I : Assign n nf → Prop} (h : InRound cfg locals s a)
    (init : I (s.enterCra cfg (locals 0)))
    (keep : ∀ a, I a → (assignTimeslot cfg).guard a = true → I (a.body cfg))
    (rbdc : ∀ a, I a → I (a.enterRbdc (locals 1)))
    (vbdc : ∀ a, I a → I (a.enterVbdc (locals 2))) : I a := by
  have loop : ∀ x y, I x → (assignTimeslot cfg).Visits x y → I y := fun x y start visit =>
    visit.invariant start fun a _ ha guard => keep a ha guard
  cases h with
  | cra visit => exact loop _ _ init visit
  | rbdc first visit =>
      have ended := loop _ _ init (Loop.returns_iff.mp first).1
      exact loop _ _ (rbdc _ ended) visit
  | vbdc first second visit =>
      have ended := loop _ _ init (Loop.returns_iff.mp first).1
      have ended' := loop _ _ (rbdc _ ended) (Loop.returns_iff.mp second).1
      exact loop _ _ (vbdc _ ended') visit

/-- The state after the third stage is one of them. -/
theorem AllocatorMFTDMA.inRound_of_stages {passes : ℕ} (h : s.stages cfg passes locals = some v) :
    InRound cfg locals s v := by
  unfold AllocatorMFTDMA.stages at h
  obtain ⟨cra, hcra, h⟩ := Option.bind_eq_some_iff.mp h
  obtain ⟨rbdc, hrbdc, hvbdc⟩ := Option.bind_eq_some_iff.mp h
  have third : (assignTimeslot cfg).Returns (rbdc.enterVbdc (locals 2)) v := ⟨passes, hvbdc⟩
  exact .vbdc ⟨passes, hcra⟩ ⟨passes, hrbdc⟩ (Loop.returns_iff.mp third).1

/-- A pass appends nothing, or grants a burst to a terminal with a positive deficit. -/
theorem Assign.body_grants (cfg : Config n nf) (a : Assign n nf) :
    ((a.body cfg).bdes = a.bdes ∧ (a.body cfg).deficit = a.deficit) ∨
      ∃ w, 0 < a.deficit a.pick.2 ∧ a.body cfg = a.grant cfg a.pick.1 a.pick.2 w := by
  have positive : a.pick.1 ≠ 0 → 0 < a.deficit a.pick.2 := by
    obtain ⟨_, _, _, _, positive⟩ := a.pick_spec
    exact positive
  have pass := a.body_pass cfg
  generalize a.body cfg = b at pass ⊢
  cases pass with
  | exhausted out => exact .inl ⟨rfl, rfl⟩
  | granted r i j some mem eligible cell free => exact .inr ⟨_, positive some, rfl⟩
  | stale stale => exact .inr ⟨_, positive stale.1, rfl⟩
  | refused offset some full => exact .inl ⟨rfl, rfl⟩

/-- The bounds of one round, when no burst has more than `B` bytes. -/
structure RoundBounds (cfg : Config n nf) (op : Operation n) (B : ℤ) (w : Network n nf)
    (passes : ℕ) (locals : Fin 3 → Locals nf) : Prop where
  positive : ∀ a b, InRound cfg locals w.al a → (a.body cfg).bdes = a.bdes ++ [b] →
    0 < a.deficit b.assignmentId
  above : ∀ a, InRound cfg locals w.al a → ∀ i, -B < a.deficit i
  granted : ∀ v, w.al.stages cfg passes locals = some v → ∀ i, v.a i = 0 ∨
    v.a i < w.al.deficit i + (w.al.cnstRate i + w.al.reqvRate i + w.al.reqvVolume i) + B
  capped : ∀ v, w.al.stages cfg passes locals = some v → ∀ i,
    (w.finish op v).al.deficit i ≤ op.maxReqBuf
  forgotten : ∀ v, w.al.stages cfg passes locals = some v → op.forgetDebit = 1 → ∀ i,
    0 ≤ (w.finish op v).al.deficit i

/-- No round that starts here grants a burst of more than `B` bytes. -/
def GrantsAtMost (cfg : Config n nf) (B : ℤ) (w : Network n nf) (e : AllocatorEvent nf) : Prop :=
  ∀ passes locals, e = .allocation passes locals →
    ∀ a, InRound cfg locals w.al a → ∀ b ∈ a.bdes, b.size ≤ B

/-- Nobody owes `B` bytes, and a round that starts here keeps its bounds. -/
def Bounded (cfg : Config n nf) (op : Operation n) (B : ℤ) (w : Network n nf)
    (e : AllocatorEvent nf) : Prop :=
  (∀ i, -B < w.al.deficit i) ∧
    ∀ passes locals, e = .allocation passes locals → RoundBounds cfg op B w passes locals

section bounds

variable {op : Operation n} {B : ℤ} {w w' : Network n nf} {e : AllocatorEvent nf}

/-- Grants that exceed `B` apart, no deficit falls to `-B` in a round. -/
theorem InRound.deficit_gt (h : InRound cfg locals s a) (start : ∀ i, -B < s.deficit i)
    (sizes : ∀ b ∈ a.bdes, b.size ≤ B) (i : Fin n) : -B < a.deficit i := by
  have raised : ∀ (b : Assign n nf) (req : Fin n → ℕ) (i : Fin n), -B < b.deficit i →
      -B < b.deficit i + req i := fun b req i low => by omega
  apply h.invariant (I := fun a => (∀ b ∈ a.bdes, b.size ≤ B) → ∀ i, -B < a.deficit i) _ _ _ _ sizes
  · intro _ i
    have low := start i
    show -B < s.deficit i + s.cnstRate i
    omega
  · intro a ha _ sizes' i
    obtain ⟨bdes, deficit⟩ | ⟨w, positive, granted⟩ := a.body_grants cfg
    · rw [deficit]
      exact ha (bdes ▸ sizes') i
    · rw [granted] at sizes' ⊢
      obtain ⟨old, new⟩ := List.forall_mem_append.mp sizes'
      have size : cfg.burstsize w.frame ≤ B := new _ (List.mem_singleton.mpr rfl)
      have low := ha old i
      by_cases own : i = a.pick.2
      · subst own
        simp only [Assign.grant, Function.update_self]
        omega
      · simpa only [Assign.grant, Function.update_of_ne own] using low
  · exact fun a ha sizes' i => raised a a.reqvRate i (ha sizes' i)
  · exact fun a ha sizes' i => raised a a.reqvVolume i (ha sizes' i)

/-- The deficits that a round leaves: capped, and cleared of debits on demand. -/
theorem finish_deficit (buf : 0 ≤ op.maxReqBuf) (v : Assign n nf) (i : Fin n) :
    (w.finish op v).al.deficit i ≤ op.maxReqBuf ∧
      (op.forgetDebit = 1 → 0 ≤ (w.finish op v).al.deficit i) ∧
      ((w.finish op v).al.deficit i = v.deficit i ∨
        (w.finish op v).al.deficit i = op.maxReqBuf ∨ (w.finish op v).al.deficit i = 0) := by
  have left : (w.finish op v).al.deficit i =
      if op.forgetDebit = 1 ∧ ((v.report op).cap op).deficit i < 0 then 0
      else ((v.report op).cap op).deficit i := by
    simp only [Network.finish, AllocatorMFTDMA.forget]
    by_cases forget : op.forgetDebit = 1 <;> simp [forget]
  have capped : ((v.report op).cap op).deficit i =
      if op.maxReqBuf < v.deficit i then op.maxReqBuf else v.deficit i := rfl
  rw [left, capped]
  split_ifs <;> omega

/-- A round keeps its bounds. -/
theorem roundBounds {passes : ℕ} (start : ∀ i, -B < w.al.deficit i) (buf : 0 ≤ op.maxReqBuf)
    (sizes : GrantsAtMost cfg B w (.allocation passes locals)) :
    RoundBounds cfg op B w passes locals where
  positive a b _ appended := by
    obtain ⟨bdes, -⟩ | ⟨w, positive, granted⟩ := a.body_grants cfg
    · rw [bdes] at appended
      exact absurd (List.self_eq_append_right.mp appended) (List.cons_ne_nil b [])
    · rw [granted] at appended
      have same := List.append_cancel_left appended
      rw [← List.singleton_inj.mp same]
      exact positive
  above a visited := visited.deficit_gt start (sizes passes locals rfl a visited)
  granted v stages i := by
    right
    have visited := AllocatorMFTDMA.inRound_of_stages stages
    have low := visited.deficit_gt start (sizes passes locals rfl v visited) i
    have accounts : RoundAccounts op w v (w.finish op v) := roundAccounts stages
    have deficit := accounts.deficit i
    have grants := accounts.grants i
    omega
  capped v _ i := (finish_deficit buf v i).1
  forgotten v _ forget i := (finish_deficit buf v i).2.1 forget

/-- No deficit has fallen to `-B` between two events. -/
theorem networkStep_deficit (start : ∀ i, -B < w.al.deficit i) (buf : 0 ≤ op.maxReqBuf)
    (pos : 0 < B) (sizes : GrantsAtMost cfg B w e) (step : networkStep cfg op w e = some w')
    (i : Fin n) : -B < w'.al.deficit i := by
  cases e with
  | rcvReq slotNum rate volume =>
      cases step
      exact start i
  | allocation passes locals =>
      obtain ⟨v, stages, rfl⟩ := Option.map_eq_some_iff.mp step
      have visited := AllocatorMFTDMA.inRound_of_stages stages
      have low := visited.deficit_gt start (sizes passes locals rfl v visited) i
      obtain same | capped | cleared := (finish_deficit (w := w) buf v i).2.2 <;> omega

/-- Grants are bounded by the configured frames, if the locals `frame` point to none or
to one of them when a loop is entered. -/
theorem grantsAtMost_of_frames (nonneg : 0 ≤ B) (frames : ∀ f, (cfg.sf f).burstsize ≤ B)
    (entered : ∀ passes locals, e = .allocation passes locals →
      ∀ k, (locals k).frame = .null ∨ ∃ f, (locals k).frame = .sf f) : GrantsAtMost cfg B w e := by
  rintro passes locals rfl a visited
  have entry : ∀ k, cfg.burstsize (locals k).frame ≤ B := fun k => by
    obtain null | ⟨f, frame⟩ := entered passes locals rfl k
    · rw [null]
      exact nonneg
    · rw [frame]
      exact frames f
  have bounded := visited.invariant
    (I := fun a => (∀ b ∈ a.bdes, b.size ≤ B) ∧ cfg.burstsize a.frame ≤ B)
    ⟨by simp [AllocatorMFTDMA.enterCra, AllocatorMFTDMA.enter], entry 0⟩ ?_
    (fun a ha => ⟨ha.1, entry 1⟩) (fun a ha => ⟨ha.1, entry 2⟩)
  · exact bounded.1
  · rintro a ⟨sizes, frame⟩ -
    have pass := a.body_pass cfg
    generalize a.body cfg = b at pass ⊢
    cases pass with
    | exhausted out => exact ⟨sizes, frame⟩
    | granted r i j some mem eligible cell free =>
        exact ⟨List.forall_mem_append.mpr ⟨sizes, List.forall_mem_singleton.mpr (frames r.fp)⟩,
          frames r.fp⟩
    | stale stale =>
        exact ⟨List.forall_mem_append.mpr ⟨sizes, List.forall_mem_singleton.mpr frame⟩, frame⟩
    | refused offset some full => exact ⟨sizes, nonneg⟩

end bounds

/-- From `init` on, no terminal ever owes `B` bytes, and every round keeps its bounds, as
long as no burst granted has more than `B` bytes. -/
theorem grants_bounded (cfg : Config n nf) (op : Operation n) {B : ℤ} (pos : 0 < B)
    (buf : 0 ≤ op.maxReqBuf) (al : AllocatorMFTDMA n nf) {s t : Network n nf} (start : s.al = al.init)
    {es : List (AllocatorEvent nf)} (sizes : Along (networkStep cfg op) (GrantsAtMost cfg B) s es)
    (reach : run (networkStep cfg op) s es = some t) :
    Along (networkStep cfg op) (Bounded cfg op B) s es ∧ ∀ i, -B < t.al.deficit i := by
  have init : ∀ i, -B < s.al.deficit i := fun i => by
    rw [start]
    exact neg_lt_zero.mpr pos
  have keep : ∀ a e b, (∀ i, -B < a.al.deficit i) → GrantsAtMost cfg B a e →
      networkStep cfg op a e = some b → ∀ i, -B < b.al.deficit i :=
    fun a e b ha small step => networkStep_deficit ha buf pos small step
  refine ⟨?_, run_invariant_along (I := fun a => ∀ i, -B < a.al.deficit i) init sizes keep reach⟩
  rw [along_iff_forall_split] at sizes ⊢
  rintro xs e ys m split before
  have small := sizes xs e ys m split before
  have low : ∀ i, -B < m.al.deficit i := by
    refine run_invariant_along (I := fun a => ∀ i, -B < a.al.deficit i) init ?_ keep before
    rw [along_iff_forall_split]
    rintro xs' e' ys' m' split' before'
    exact sizes xs' e' (ys' ++ e :: ys) m' (by rw [split, split']; simp) before'
  refine ⟨low, ?_⟩
  rintro passes locals rfl
  exact roundBounds low buf small

/-- Two rounds on frames of bursts of 10 bytes. -/
theorem grants_bounded_attached : ∃ t, run (networkStep fourSlots oneHub) attached
      [.rcvReq 1 0 25, .allocation 9 fun _ => ⟨.null, 0⟩, .rcvReq 1 0 5, .allocation 9 fun _ =>
        ⟨.null, 0⟩] = some t ∧ ∀ i, -10 < t.al.deficit i := by
  have returned : (run (networkStep fourSlots oneHub) attached
      [.rcvReq 1 0 25, .allocation 9 fun _ => ⟨.null, 0⟩, .rcvReq 1 0 5, .allocation 9 fun _ =>
        ⟨.null, 0⟩]).isSome = true := by
    decide +kernel
  obtain ⟨t, reach⟩ := Option.isSome_iff_exists.mp returned
  refine ⟨t, reach, (grants_bounded fourSlots oneHub (by decide) (by decide) _ rfl ?_ reach).2⟩
  rw [along_iff_forall_split]
  rintro xs e ys m split -
  refine grantsAtMost_of_frames (by decide) (by decide) ?_
  rintro passes locals rfl k
  have mem : .allocation passes locals ∈ [AllocatorEvent.rcvReq 1 0 25,
      .allocation 9 fun _ => ⟨.null, 0⟩, .rcvReq 1 0 5, .allocation 9 fun _ => ⟨.null, 0⟩] := by
    rw [split]
    simp
  simp only [List.mem_cons, List.not_mem_nil, or_false, reduceCtorEq, false_or,
    AllocatorEvent.allocation.injEq, or_self] at mem
  left
  rw [mem.2]

end Mftdma.Allocator
