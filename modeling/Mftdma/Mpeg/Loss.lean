import Mathlib.Algebra.Order.BigOperators.Group.List
import Mathlib.Algebra.Order.Group.Nat
import Mftdma.Mpeg.Stream

/-!
# ULE reassembly when cells are lost

A receiver that hears one sender keeps one packet under construction and starts
anew at every other `uid_`. `ule_exact` says that it hands up exactly the packets
all of whose fragments came through, whatever cells are lost.

The fragments are grouped by packets when they are cut, and by cells when they
are lost. `Marked` bridges the two: it is the line of fragments, each with a mark
that says whether its cell came through.
-/

namespace Mftdma.Mpeg

open Execution

/-- A fragment, and whether it came through. -/
abbrev Marked := Frag × Bool

/-- The fragments that came through. -/
def heardOf (line : List Marked) : List Frag := (line.filter Prod.snd).map Prod.fst

/-- All fragments of the packet of a `uid_` came through. -/
def Whole (line : List Marked) (uid : ℕ) : Prop :=
  ∀ x ∈ line, x.1.packet.uid = uid → x.2 = true

instance (line : List Marked) (uid : ℕ) : Decidable (Whole line uid) :=
  inferInstanceAs (Decidable (∀ x ∈ line, _))

section packet

variable {p : Packet} {w : Option RxPacket × List Packet}

theorem bytes_concat (frags : List Frag) (f : Frag) : bytes (frags ++ [f]) = bytes frags + f.size :=
  bytes_snoc frags f.packet f.size

/-- A fragment joins those of its own packet and pushes out any other packet. -/
theorem collect_own (pid : ℕ) (frags : List Frag) {f : Frag} (own : f.packet = p.encapsulate)
    (other : ∀ r, w.1 = some r → r.packet.uid ≠ p.uid) :
    RxPacket.collect pid
        (if frags = [] then w.1 else some ⟨p.encapsulate, pid, bytes frags⟩) f =
      ⟨p.encapsulate, pid, bytes (frags ++ [f])⟩ := by
  have uid : f.packet.uid = p.uid := by
    rw [own]
    rfl
  rw [bytes_concat]
  split_ifs with first
  · subst first
    have size : f.size = bytes [] + f.size := (Nat.zero_add _).symm
    cases held : w.1 with
    | none => rw [RxPacket.collect, own, ← size]
    | some r => rw [RxPacket.collect, if_neg (uid ▸ other r held), own, ← size]
  · exact if_pos uid.symm

/-- As long as bytes of a packet are missing, it stays in the slot. -/
theorem accept_part (pid : ℕ) {frags : List Frag} (own : ∀ f ∈ frags, f.packet = p.encapsulate)
    (other : ∀ r, w.1 = some r → r.packet.uid ≠ p.uid) (part : bytes frags < p.encapsulate.size) :
    frags.foldl (RxPacket.accept pid) w =
      (if frags = [] then w.1 else some ⟨p.encapsulate, pid, bytes frags⟩, w.2) := by
  induction frags using List.reverseRecOn with
  | nil => rfl
  | append_singleton frags f ih =>
      have fewer : bytes frags < p.encapsulate.size := by
        rw [bytes_concat] at part
        exact Nat.lt_of_le_of_lt (Nat.le_add_right _ _) part
      have before := ih (fun g hg => own g (List.mem_append_left _ hg)) fewer
      have collected := collect_own pid frags (own f (by simp)) other
      rw [List.foldl_append, before, List.foldl_cons, List.foldl_nil, RxPacket.accept, collected,
        if_neg part.ne', if_neg (List.concat_ne_nil f frags)]

/-- With its last fragment a packet goes up, with the size that it came with. -/
theorem accept_whole (pid : ℕ) {frags : List Frag} (cut : Cut p.encapsulate frags)
    (other : ∀ r, w.1 = some r → r.packet.uid ≠ p.uid) :
    frags.foldl (RxPacket.accept pid) w = (none, w.2 ++ [p]) := by
  obtain rfl | ⟨front, f, rfl⟩ := frags.eq_nil_or_concat'
  · exact absurd rfl cut.nonempty
  · have total := cut.total
    have pos := (cut.own f (by simp)).2
    have part : bytes front < p.encapsulate.size := by
      rw [bytes_concat] at total
      omega
    have before := accept_part pid
      (fun g hg => (cut.own g (List.mem_append_left _ hg)).1) other part
    have collected := collect_own pid front (cut.own f (by simp)).1 other
    have restored : { p.encapsulate with size := p.encapsulate.size - uleHdrAndCrc } = p := by
      show { p with size := p.size + uleHdrAndCrc - uleHdrAndCrc } = p
      rw [Nat.add_sub_cancel]
    rw [List.foldl_append, before, List.foldl_cons, List.foldl_nil, RxPacket.accept, collected,
      if_pos total.symm, restored]

end packet

/-- The fragments of the packets `ps`, each with its mark. -/
def MarkedCuts (ps : List Packet) (cuts : List (List Marked)) : Prop :=
  List.Forall₂ (fun p cut => Cut p.encapsulate (cut.map Prod.fst)) ps cuts

variable {ps : List Packet} {cuts : List (List Marked)} {cut line : List Marked} {p : Packet}
  {uid : ℕ} {w : Option RxPacket × List Packet}

theorem heardOf_append (line line' : List Marked) :
    heardOf (line ++ line') = heardOf line ++ heardOf line' := by
  rw [heardOf, List.filter_append, List.map_append]
  rfl

theorem whole_append {line' : List Marked} :
    Whole (line ++ line') uid ↔ Whole line uid ∧ Whole line' uid := by
  simp only [Whole, List.forall_mem_append]

theorem uid_of_cut (own : Cut p.encapsulate (cut.map Prod.fst)) :
    ∀ x ∈ cut, x.1.packet.uid = p.uid := fun x hx => by
  rw [(own.own x.1 (List.mem_map_of_mem hx)).1]
  rfl

theorem exists_uid_of_cuts (all : MarkedCuts ps cuts) :
    ∀ x ∈ cuts.flatten, ∃ p ∈ ps, x.1.packet.uid = p.uid := by
  induction all with
  | nil => simp
  | cons own _ ih =>
      intro x hx
      obtain here | later := List.mem_append.mp hx
      · exact ⟨_, List.mem_cons_self, uid_of_cut own x here⟩
      · obtain ⟨p, hp, same⟩ := ih x later
        exact ⟨p, List.mem_cons_of_mem _ hp, same⟩

/-- What is lost of a packet is missing. -/
theorem bytes_heardOf_lt (pos : ∀ x ∈ cut, 0 < x.1.size) {x : Marked} (hx : x ∈ cut)
    (lost : x.2 = false) : bytes (heardOf cut) < bytes (cut.map Prod.fst) := by
  have parts := ((List.filter_append_perm Prod.snd cut).map fun x => x.1.size).sum_eq
  rw [List.map_append, List.sum_append] at parts
  have gone : x.1.size ∈ (cut.filter fun x => !x.2).map fun x => x.1.size :=
    List.mem_map_of_mem (List.mem_filter.mpr ⟨hx, by simp [lost]⟩)
  have some_lost := (pos x hx).trans_le (List.le_sum_of_mem gone)
  rw [bytes, bytes, heardOf, List.map_map, List.map_map]
  exact (Nat.lt_add_of_pos_right some_lost).trans_eq parts

/-- One packet: it goes up if it is whole, and otherwise at most stays in the slot. -/
theorem accept_cut (pid : ℕ) (own : Cut p.encapsulate (cut.map Prod.fst))
    (other : ∀ r, w.1 = some r → r.packet.uid ≠ p.uid) :
    ((heardOf cut).foldl (RxPacket.accept pid) w).2 =
        w.2 ++ (if Whole cut p.uid then [p] else []) ∧
      ∀ r, ((heardOf cut).foldl (RxPacket.accept pid) w).1 = some r →
        w.1 = some r ∨ r.packet.uid = p.uid := by
  have uids := uid_of_cut own
  by_cases whole : Whole cut p.uid
  · have all : heardOf cut = cut.map Prod.fst := by
      rw [heardOf, List.filter_eq_self.mpr fun x hx => whole x hx (uids x hx)]
    rw [all, accept_whole pid own other, if_pos whole]
    exact ⟨rfl, fun r hr => by cases hr⟩
  · obtain ⟨x, hx, lost⟩ : ∃ x ∈ cut, x.2 = false := by
      by_contra none
      refine whole fun x hx _ => ?_
      by_contra lost
      exact none ⟨x, hx, Bool.eq_false_of_not_eq_true lost⟩
    have part := bytes_heardOf_lt (fun y hy => (own.own y.1 (List.mem_map_of_mem hy)).2) hx lost
    rw [own.total] at part
    have mine : ∀ f ∈ heardOf cut, f.packet = p.encapsulate := fun f hf => by
      obtain ⟨y, hy, rfl⟩ := List.mem_map.mp hf
      exact (own.own y.1 (List.mem_map_of_mem (List.mem_of_mem_filter hy))).1
    rw [accept_part pid mine other part, if_neg whole]
    refine ⟨(List.append_nil _).symm, fun r hr => ?_⟩
    dsimp only at hr
    split_ifs at hr
    · exact .inl hr
    · obtain rfl := Option.some.inj hr
      exact .inr rfl

/-- All packets: those that are whole go up, in order. -/
theorem accept_cuts (pid : ℕ) (all : MarkedCuts ps cuts) (distinct : (ps.map Packet.uid).Nodup)
    (other : ∀ r, w.1 = some r → ∀ p ∈ ps, r.packet.uid ≠ p.uid) :
    ((heardOf cuts.flatten).foldl (RxPacket.accept pid) w).2 =
      w.2 ++ ps.filter fun p => Whole cuts.flatten p.uid := by
  induction all generalizing w with
  | nil => exact (List.append_nil _).symm
  | @cons p cut ps cuts own rest ih =>
      obtain ⟨fresh, distinct⟩ := List.nodup_cons.mp distinct
      obtain ⟨up, slot⟩ := accept_cut pid own fun r hr => other r hr p List.mem_cons_self
      have later : ∀ r, ((heardOf cut).foldl (RxPacket.accept pid) w).1 = some r →
          ∀ p' ∈ ps, r.packet.uid ≠ p'.uid := by
        intro r hr p' hp'
        obtain old | new := slot r hr
        · exact other r old p' (List.mem_cons_of_mem p hp')
        · rw [new]
          exact fun same => fresh (same ▸ List.mem_map_of_mem hp')
      -- a packet is whole as far as its own fragments are
      have here : Whole (cut ++ cuts.flatten) p.uid ↔ Whole cut p.uid := by
        refine whole_append.trans (and_iff_left fun x hx same => ?_)
        obtain ⟨p', hp', uid⟩ := exists_uid_of_cuts rest x hx
        exact absurd (List.mem_map.mpr ⟨p', hp', uid.symm.trans same⟩) fresh
      have there : ∀ p' ∈ ps, Whole (cut ++ cuts.flatten) p'.uid ↔ Whole cuts.flatten p'.uid := by
        refine fun p' hp' => whole_append.trans (and_iff_right fun x hx same => ?_)
        exact absurd (List.mem_map.mpr ⟨p', hp', same.symm.trans (uid_of_cut own x hx)⟩) fresh
      rw [List.flatten_cons, heardOf_append, List.foldl_append, ih distinct later, up,
        List.append_assoc, List.filter_cons]
      have tail : ps.filter (fun p => Whole (cut ++ cuts.flatten) p.uid) =
          ps.filter fun p => Whole cuts.flatten p.uid :=
        List.filter_congr fun p' hp' => decide_eq_decide.mpr (there p' hp')
      simp only [here, tail, decide_eq_true_eq]
      split_ifs <;> rfl

/-- A line that is cut by packets is cut by packets with its marks. -/
theorem exists_markedCuts {frags : List (List Frag)}
    (all : List.Forall₂ (fun p cut => Cut p.encapsulate cut) ps frags)
    (same : line.map Prod.fst = frags.flatten) :
    ∃ cuts, line = cuts.flatten ∧ MarkedCuts ps cuts := by
  induction all generalizing line with
  | nil => exact ⟨[], List.map_eq_nil_iff.mp same, .nil⟩
  | cons own _ ih =>
      obtain ⟨cut, rest, rfl, here, later⟩ := List.map_eq_append_iff.mp same
      obtain ⟨cuts, rfl, all⟩ := ih later
      exact ⟨cut :: cuts, rfl, .cons (here ▸ own) all⟩

/-- The fragments of one cell, marked. -/
def mark (came : Bool) (frags : List Frag) : List Marked := frags.map fun f => (f, came)

@[simp] theorem map_fst_mark (came : Bool) (frags : List Frag) :
    (mark came frags).map Prod.fst = frags :=
  (List.map_map).trans (List.map_id frags)

@[simp] theorem heardOf_mark (came : Bool) (frags : List Frag) :
    heardOf (mark came frags) = if came then frags else [] := by
  cases came <;> simp [heardOf, mark, List.filter_map, Function.comp_def]

theorem whole_mark {came : Bool} {frags : List Frag} :
    Whole (mark came frags) uid ↔ came = true ∨ ∀ f ∈ frags, f.packet.uid ≠ uid := by
  cases came <;> simp [Whole, mark]

/-- The cells that come through, in order; `keep i` says it of the cell number `i`. -/
def arriving (keep : ℕ → Bool) (cells : List (ℕ × List Frag)) : List (ℕ × List Frag) :=
  (cells.zipIdx.filter fun c => keep c.2).map Prod.fst

/-- A cell from below. -/
def arrival (c : ℕ × List Frag) : Event := .receive c.1 c.2

section cells

variable {keep : ℕ → Bool}

/-- The fragments of numbered cells, marked. -/
def marks (keep : ℕ → Bool) (cells : List ((ℕ × List Frag) × ℕ)) : List Marked :=
  cells.flatMap fun c => mark (keep c.2) c.1.2

theorem map_fst_marks (cells : List ((ℕ × List Frag) × ℕ)) :
    (marks keep cells).map Prod.fst = (cells.map Prod.fst).flatMap Prod.snd := by
  rw [marks, List.map_flatMap, List.flatMap_map]
  simp only [map_fst_mark]

theorem heardOf_marks (cells : List ((ℕ × List Frag) × ℕ)) : heardOf (marks keep cells) =
    ((cells.filter fun c => keep c.2).map Prod.fst).flatMap Prod.snd := by
  induction cells with
  | nil => rfl
  | cons c cells ih =>
      rw [marks, List.flatMap_cons, heardOf_append, heardOf_mark, List.filter_cons]
      split_ifs
      · exact congrArg (c.1.2 ++ ·) ih
      · exact ih

theorem whole_marks {cells : List ((ℕ × List Frag) × ℕ)} : Whole (marks keep cells) uid ↔
    ∀ c ∈ cells, keep c.2 = true ∨ ∀ f ∈ c.1.2, f.packet.uid ≠ uid := by
  induction cells with
  | nil => simp [marks, Whole]
  | cons c cells ih =>
      rw [marks, List.flatMap_cons, whole_append, whole_mark, List.forall_mem_cons]
      exact and_congr_right fun _ => ih

end cells

/-- All fragments of the packet of a `uid_` came through: none is in a lost cell, and none
is still in an open one. -/
def Travelled (keep : ℕ → Bool) (cells : List (ℕ × List Frag)) (t : MpegLL) (uid : ℕ) : Prop :=
  (∀ c ∈ cells.zipIdx, keep c.2 = true ∨ ∀ f ∈ c.1.2, f.packet.uid ≠ uid) ∧
    ∀ q, ∀ f ∈ t.openFrags q, f.packet.uid ≠ uid

instance (keep : ℕ → Bool) (cells : List (ℕ × List Frag)) (t : MpegLL) (uid : ℕ) :
    Decidable (Travelled keep cells t uid) :=
  inferInstanceAs (Decidable (_ ∧ _))

namespace MpegLL

variable {s : MpegLL}

/-- A station that has heard no one but `pid`. -/
def Hears (pid : ℕ) (s : MpegLL) : Prop :=
  ∀ l r, s.rxBuffer l = some r → l = home pid ∧ r.addr = pid

theorem Hears.getQueue {pid : ℕ} (h : Hears pid s) :
    Mpeg.getQueue s.rxAddrs pid = some (home pid) := by
  apply Probing.lookup_home
  intro b hb
  obtain ⟨r, held, rfl⟩ := Option.map_eq_some_iff.mp hb
  exact (h _ r held).2

/-- The slot of `pid` after the fragments of a cell is still one of `pid`. -/
theorem addr_of_accept {pid : ℕ} {w : Option RxPacket × List Packet}
    (own : ∀ r, w.1 = some r → r.addr = pid) (frags : List Frag) :
    ∀ r, (frags.foldl (RxPacket.accept pid) w).1 = some r → r.addr = pid := by
  induction frags generalizing w with
  | nil => exact own
  | cons f frags ih =>
      apply ih
      intro r hr
      rw [RxPacket.accept] at hr
      dsimp only at hr
      split_ifs at hr
      obtain rfl := Option.some.inj hr
      exact RxPacket.collect_addr pid w.1 f

/-- A cell from `pid` never finds the buffers full, and only its slot is written. -/
theorem Hears.step {pid : ℕ} (h : Hears pid s) (me : ℕ) (frags : List Frag) :
    ∃ m, Mpeg.step me s (.receive pid frags) = some m ∧ Hears pid m ∧
      (m.rxBuffer (home pid), m.up) =
        frags.foldl (RxPacket.accept pid) (s.rxBuffer (home pid), s.up) := by
  let w := frags.foldl (RxPacket.accept pid) (s.rxBuffer (home pid), s.up)
  let m : MpegLL := { s with rxBuffer := Function.update s.rxBuffer (home pid) w.1, up := w.2 }
  have here : m.rxBuffer (home pid) = w.1 := Function.update_self ..
  have stepped : s.sendUp pid frags = some m := by
    rw [sendUp, h.getQueue]
    rfl
  refine ⟨m, stepped, fun l r hr => ?_, by rw [here]⟩
  by_cases same : l = home pid
  · subst same
    rw [here] at hr
    exact ⟨rfl, addr_of_accept (fun r old => (h _ r old).2) frags r hr⟩
  · have old : m.rxBuffer l = s.rxBuffer l := Function.update_of_ne same ..
    rw [old] at hr
    exact h l r hr

/-- Receiving from one station is one loop over all the fragments. -/
theorem receiver_run {pid : ℕ} (h : Hears pid s) (me : ℕ) {cells : List (ℕ × List Frag)}
    (source : ∀ c ∈ cells, c.1 = pid) :
    ∃ r, run (Mpeg.step me) s (cells.map arrival) = some r ∧
      r.up = ((cells.flatMap Prod.snd).foldl (RxPacket.accept pid)
        (s.rxBuffer (home pid), s.up)).2 := by
  induction cells generalizing s with
  | nil => exact ⟨s, rfl, rfl⟩
  | cons c cells ih =>
      obtain rfl := source c List.mem_cons_self
      obtain ⟨m, stepped, heard, slot⟩ := h.step me c.2
      obtain ⟨r, reach, up⟩ := ih heard fun e he => source e (List.mem_cons_of_mem c he)
      refine ⟨r, run_cons_eq_some.mpr ⟨m, stepped, reach⟩, ?_⟩
      rw [up, slot, List.flatMap_cons, List.foldl_append]

theorem hears_init (pid : ℕ) : Hears pid init := fun _ _ h => by cases h

end MpegLL

/-- With one next hop, what is still waiting is in its open cell. -/
theorem whole_iff_travelled {keep : ℕ → Bool} {cells : List (ℕ × List Frag)} {t : MpegLL}
    {id d : ℕ} (single : MpegLL.Single id d t) :
    Whole (marks keep cells.zipIdx ++ mark false (t.openFrags (home d))) uid ↔
      Travelled keep cells t uid := by
  rw [whole_append, whole_marks, whole_mark]
  refine and_congr_right fun _ => ⟨fun h q => ?_, fun h => .inr (h (home d))⟩
  by_cases own : q = home d
  · rw [own]
    exact h.resolve_left Bool.false_ne_true
  · rw [MpegLL.openFrags_of_none (single.only q own)]
    exact List.forall_mem_nil _

/-- One sender with one next hop, any flushing of its cells, and any of them lost: the
receiver hands up exactly the packets all of whose fragments came through, once, in order
and with the size they had before `send_frags`. A payload holds any number of fragments
here; the arrays of the source end after `maxFrags`. -/
theorem ule_exact {es : List Event} {id d : ℕ}
    (comes : Along (step id) (Comes d) MpegLL.init es)
    (distinct : ((packetsOf es).map Packet.uid).Nodup) (keep : ℕ → Bool) (me : ℕ) :
    ∃ t r, run (step id) MpegLL.init es = some t ∧
      run (step me) MpegLL.init
        ((arriving keep (MpegLL.emitted id MpegLL.init es)).map arrival) = some r ∧
      r.up = (packetsOf es).filter fun p =>
        Travelled keep (MpegLL.emitted id MpegLL.init es) t p.uid := by
  obtain ⟨t, reach, single, sent, frags, line, cut⟩ := MpegLL.sender_run comes
  have source : ∀ c ∈ arriving keep (MpegLL.emitted id MpegLL.init es), c.1 = id := by
    intro c hc
    obtain ⟨⟨c, i⟩, numbered, rfl⟩ := List.mem_map.mp hc
    have emitted := List.fst_mem_of_mem_zipIdx (List.mem_of_mem_filter numbered)
    rw [sent] at emitted
    obtain ⟨c, gone, rfl⟩ := List.mem_map.mp emitted
    exact single.pid c (.inr gone)
  obtain ⟨r, heard, up⟩ := MpegLL.receiver_run (MpegLL.hears_init id) me source
  refine ⟨t, r, reach, heard, ?_⟩
  -- the line of the sender: the numbered cells, and the open cell, which is never heard
  let numbered := (MpegLL.emitted id MpegLL.init es).zipIdx
  let waiting := t.openFrags (home d)
  have frags_eq : (marks keep numbered ++ mark false waiting).map Prod.fst = frags.flatten := by
    rw [List.map_append, map_fst_marks, map_fst_mark, List.zipIdx_map_fst, sent, ← line,
      MpegLL.line, List.flatMap_map]
    rfl
  obtain ⟨cuts, marked, all⟩ := exists_markedCuts cut frags_eq
  have arrived : heardOf cuts.flatten =
      (arriving keep (MpegLL.emitted id MpegLL.init es)).flatMap Prod.snd := by
    rw [← marked, heardOf_append, heardOf_marks, heardOf_mark]
    exact List.append_nil _
  rw [up, ← arrived, accept_cuts id all distinct (fun r hr => by cases hr)]
  refine (List.nil_append _).trans (List.filter_congr ?_)
  intro p _
  rw [← marked]
  exact decide_eq_decide.mpr (whole_iff_travelled single)

/-- Two packets, the second one longer than a cell; a timer sends what is left of it. -/
def flushed : List Event := [.send ⟨0, 1, 40⟩, .send ⟨1, 1, 300⟩, .timer (home 1)]

/-- The second cell is lost, and the packet that reaches into it does not go up. -/
theorem ule_exact_flushed :
    ∃ r, run (step 7) MpegLL.init ((arriving (fun i => i != 1)
        (MpegLL.emitted 3 MpegLL.init flushed)).map arrival) = some r ∧
      r.up = [⟨0, 1, 40⟩] := by
  have comes : Along (step 3) (Comes 1) MpegLL.init flushed := by decide +kernel
  have distinct : ((packetsOf flushed).map Packet.uid).Nodup := by decide
  obtain ⟨t, r, reach, heard, up⟩ := ule_exact comes distinct (fun i => i != 1) 7
  have one : ∀ t ∈ run (step 3) MpegLL.init flushed,
      ((packetsOf flushed).filter fun p => Travelled (fun i => i != 1)
        (MpegLL.emitted 3 MpegLL.init flushed) t p.uid) = [⟨0, 1, 40⟩] := by decide +kernel
  exact ⟨r, heard, up.trans (one t reach)⟩

end Mftdma.Mpeg
