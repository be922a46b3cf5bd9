import Mftdma.Rle.Capacity

/-!
# The fragments of a packet

A packet goes out whole, or as a first fragment, some in the middle and a last one.
The first split makes it three bytes longer, after it has been found too long. `Begun`
is what has been sent of a packet that is still queued, `Tiles` what has been sent of
one that has left the queue, and `Rest` relates its header to what has been sent: at
any time `psize` is what is missing of `total_length`.

Fragments of other packets may come in between, since a packet that is split waits for
the next slot at the head of its priority only.
-/

namespace Mftdma.Rle

open Execution

/-- The bytes in some fragments. -/
def lengths (fs : List Frag) : ℕ := (fs.map fun fh => fh.length.toNat).sum

/-- The fragments of the packet `u` among those sent. -/
def fragsOf (u : ℕ) (fs : List Frag) : List Frag := fs.filter fun fh => fh.alpdu.uid = u

/-- A first fragment and any number of middle ones. -/
def Begun : List Frag → Prop
  | [] => False
  | fh :: fs => fh.startEnd = 2 ∧ ∀ m ∈ fs, m.startEnd = 0

/-- All fragments of a packet of `size` bytes. -/
inductive Tiles (size : ℕ) : List Frag → Prop
  | whole {fh : Frag} (se : fh.startEnd = 3) (length : fh.length.toNat = size)
      (total : fh.alpdu.totalLength.toNat = size) : Tiles size [fh]
  | split {fs : List Frag} {fh : Frag} (begun : Begun fs) (se : fh.startEnd = 1)
      (total : fh.alpdu.totalLength.toNat = size + (phs + ts).toNat)
      (sum : lengths (fs ++ [fh]) = fh.alpdu.totalLength.toNat) : Tiles size (fs ++ [fh])

/-- A queued packet of `size` bytes and its fragments so far. -/
inductive Rest (size : ℕ) (p : Packet) : List Frag → Prop
  | untouched (se : p.startEnd = 3) (psize : p.psize.toNat = size)
      (total : p.totalLength.toNat = size) : Rest size p []
  | part {fs : List Frag} (begun : Begun fs) (se : p.startEnd = 0)
      (total : p.totalLength.toNat = size + (phs + ts).toNat)
      (sum : lengths fs + p.psize.toNat = p.totalLength.toNat) : Rest size p fs

section packet

variable {p : Packet} {size : ℕ} {fs xs ys : List Frag} {fh : Frag} {bs : BitVec 32} {u : ℕ}
  {next : Fin 8 → BitVec 8}

theorem lengths_snoc : lengths (fs ++ [fh]) = lengths fs + fh.length.toNat := by
  simp [lengths]

theorem fragsOf_append : fragsOf u (xs ++ ys) = fragsOf u xs ++ fragsOf u ys :=
  List.filter_append ..

theorem fragsOf_own (own : fh.alpdu.uid = u) : fragsOf u (fs ++ [fh]) = fragsOf u fs ++ [fh] := by
  rw [fragsOf_append]
  simp [fragsOf, own]

theorem fragsOf_other (other : fh.alpdu.uid ≠ u) : fragsOf u (fs ++ [fh]) = fragsOf u fs := by
  rw [fragsOf_append]
  simp [fragsOf, other]

theorem Begun.snoc (h : Begun fs) (se : fh.startEnd = 0) : Begun (fs ++ [fh]) := by
  cases fs with
  | nil => exact absurd h not_false
  | cons f fs =>
      refine ⟨h.1, fun m hm => ?_⟩
      obtain old | new := List.mem_append.mp hm
      · exact h.2 m old
      · rw [List.mem_singleton.mp new]
        exact se

theorem toNat_phs_add_ts : (phs + ts).toNat = 3 := rfl

theorem Rest.sized (h : Rest size p fs) (small : size < 2 ^ 31) : p.Sized := by
  cases h with
  | untouched se psize total =>
      refine ⟨by omega, fun _ => ⟨BitVec.eq_of_toNat_eq (psize.trans total.symm), by omega⟩⟩
  | part begun se total sum =>
      rw [toNat_phs_add_ts] at total
      refine ⟨by omega, fun whole => absurd ?_ whole⟩
      rw [se]
      rfl

/-- The fragment that fills a burst comes off `psize`. -/
theorem Rest.split (h : Rest size p fs) (small : size < 2 ^ 31) (large : bs < p.psize + fhs)
    (room : 2 ≤ bs.toNat) : Rest size (p.split bs) (fs ++ [p.splitFrag bs]) := by
  have sized := h.sized small
  have less := sized.lt_of_large large
  have grown := sized.label.1
  have taken : (p.splitFrag bs).length.toNat = bs.toNat - 2 := toNat_sub_fhs room
  have left := sized.psize_split large room
  cases h with
  | untouched se psize total =>
      have label : p.label = { p with
          totalLength := p.totalLength + (phs + ts)
          psize := p.totalLength + (phs + ts) } :=
        if_pos (by rw [se]; decide)
      have added : (p.totalLength + (phs + ts)).toNat = p.totalLength.toNat + 3 := by
        apply BitVec.toNat_add_of_lt
        rw [toNat_phs_add_ts]
        omega
      have longer : p.label.psize.toNat = size + 3 := by
        rw [label, ← total]
        exact added
      have final : (p.split bs).totalLength.toNat = size + 3 := by
        show p.label.totalLength.toNat = size + 3
        rw [label, ← total]
        exact added
      refine .part ⟨?_, by simp⟩ (p.split_startEnd bs) final ?_
      · show p.startEnd &&& 2 = 2
        rw [se]
        rfl
      · rw [lengths_snoc, taken, left, final, longer]
        show 0 + (bs.toNat - 2) + _ = _
        omega
  | part begun se total sum =>
      have label := Packet.label_of_rest se
      have final : (p.split bs).totalLength = p.totalLength := by
        show p.label.totalLength = _
        rw [label]
      refine .part (begun.snoc ?_) (p.split_startEnd bs) ?_ ?_
      · show p.startEnd &&& 2 = 0
        rw [se]
        rfl
      · rw [final, total]
      · rw [lengths_snoc, taken, left, final, label]
        rw [label] at grown
        omega

/-- The fragment that holds the rest completes the packet. -/
theorem Rest.rest (h : Rest size p fs) (next : Fin 8 → BitVec 8) :
    Tiles size (fs ++ [p.restFrag next]) := by
  cases h with
  | untouched se psize total =>
      refine .whole ?_ psize total
      show p.startEnd ||| 1 = 3
      rw [se]
      rfl
  | part begun se total sum =>
      refine .split begun ?_ total ?_
      · show p.startEnd ||| 1 = 1
        rw [se]
        rfl
      · rw [lengths_snoc]
        exact sum

end packet

/-- The sender has taken in packets of the `sizes`, and sent the fragments `fs`. -/
structure Tiled (sizes : List ℕ) (s : Sender) (fs : List Frag) : Prop where
  arrived : sizes.length = s.arrived
  small : ∀ size ∈ sizes, size < 2 ^ 31
  uids : (s.queue.map fun p => p.uid).Nodup
  queued : ∀ p ∈ s.queue, ∃ size, sizes[p.uid]? = some size ∧ Rest size p (fragsOf p.uid fs)
  gone : ∀ u size, sizes[u]? = some size → (∀ p ∈ s.queue, p.uid ≠ u) → Tiles size (fragsOf u fs)
  sent : ∀ fh ∈ fs, fh.alpdu.uid < s.arrived

namespace Tiled

variable {sizes : List ℕ} {s : Sender} {fs : List Frag} {p : Packet} {q : List Packet}
  {next next' : Fin 8 → BitVec 8} {arrived : ℕ} {bs : BitVec 32}

theorem init : Tiled [] Sender.init [] where
  arrived := rfl
  small _ h := by cases h
  uids := .nil
  queued _ h := by cases h
  gone u size h := by cases h
  sent _ h := by cases h

theorem uid_lt (h : Tiled sizes s fs) (hp : p ∈ s.queue) : p.uid < s.arrived := by
  obtain ⟨size, found, -⟩ := h.queued p hp
  obtain ⟨inside, -⟩ := List.getElem?_eq_some_iff.mp found
  rwa [h.arrived] at inside

theorem head_uid (h : Tiled sizes ⟨p :: q, next, arrived⟩ fs) : ∀ a ∈ q, a.uid ≠ p.uid := by
  have new := (List.nodup_cons.mp h.uids).1
  rintro a ha same
  exact new (List.mem_map.mpr ⟨a, ha, same⟩)

/-- Nothing has been sent of a packet that comes. -/
theorem fragsOf_arrived (h : Tiled sizes s fs) : fragsOf s.arrived fs = [] := by
  apply List.filter_eq_nil_iff.mpr
  intro fh hfh same
  exact absurd (h.sent fh hfh) (by rw [of_decide_eq_true same]; exact Nat.lt_irrefl _)

theorem recv (h : Tiled sizes s fs) (macDA : ℤ) (prio : Fin 8) {size : BitVec 32}
    (nonneg : 0 ≤ size.toInt) :
    Tiled (sizes ++ [size.toNat]) (s.step (.recv macDA prio size)).1 fs := by
  have bound : size.toNat < 2 ^ 31 := by
    rw [BitVec.toInt_eq_toNat_cond] at nonneg
    split at nonneg <;> omega
  have new : (sizes ++ [size.toNat])[s.arrived]? = some size.toNat := by
    rw [← h.arrived, List.getElem?_append_right le_rfl, Nat.sub_self]
    rfl
  have old : ∀ u, u ≠ s.arrived → (sizes ++ [size.toNat])[u]? = sizes[u]? := by
    intro u other
    rw [← h.arrived] at other
    obtain less | more := Nat.lt_or_gt_of_ne other
    · exact List.getElem?_append_left less
    · rw [List.getElem?_eq_none (Nat.le_of_lt more), List.getElem?_eq_none]
      rw [List.length_append, List.length_singleton]
      exact more
  have perm := enque_perm (initPacket s.arrived macDA prio size) s.queue
  have member : ∀ a, a ∈ enque (initPacket s.arrived macDA prio size) s.queue ↔
      a = initPacket s.arrived macDA prio size ∨ a ∈ s.queue :=
    fun a => perm.mem_iff.trans List.mem_cons
  refine ⟨?_, ?_, ?_, fun p hp => ?_, fun u size' found absent => ?_, fun fh hfh => ?_⟩
  · rw [List.length_append, List.length_singleton, h.arrived]
    rfl
  · intro size' hs
    obtain old | new := List.mem_append.mp hs
    · exact h.small size' old
    · rw [List.mem_singleton.mp new]
      exact bound
  · rw [Sender.step, (perm.map fun p => p.uid).nodup_iff, List.map_cons, List.nodup_cons]
    refine ⟨fun mem => ?_, h.uids⟩
    obtain ⟨p, hp, same⟩ := List.mem_map.mp mem
    exact (h.uid_lt hp).ne same
  · obtain rfl | old' := (member p).mp hp
    · refine ⟨size.toNat, new, ?_⟩
      rw [show (initPacket s.arrived macDA prio size).uid = s.arrived from rfl, h.fragsOf_arrived]
      exact .untouched rfl rfl rfl
    · rw [old p.uid (h.uid_lt old').ne]
      exact h.queued p old'
  · have other : u ≠ s.arrived := by
      rintro rfl
      exact absent _ ((member _).mpr (.inl rfl)) rfl
    rw [old u other] at found
    exact h.gone u size' found fun p hp => absent p ((member p).mpr (.inr hp))
  · exact Nat.lt_succ_of_lt (h.sent fh hfh)

/-- Fragments of the head of the queue are none of the others. -/
theorem fragsOf_head {fh : Frag} (own : fh.alpdu.uid = p.uid) {u : ℕ} (other : u ≠ p.uid) :
    fragsOf u (fs ++ [fh]) = fragsOf u fs :=
  fragsOf_other (by rw [own]; exact other.symm)

theorem sent_head (h : Tiled sizes ⟨p :: q, next, arrived⟩ fs) {fh : Frag}
    (own : fh.alpdu.uid = p.uid) : ∀ f ∈ fs ++ [fh], f.alpdu.uid < arrived := by
  intro f hf
  obtain old | new := List.mem_append.mp hf
  · exact h.sent f old
  · rw [List.mem_singleton.mp new, own]
    exact h.uid_lt List.mem_cons_self

/-- The head is too big for what is left of the burst. -/
theorem split (h : Tiled sizes ⟨p :: q, next, arrived⟩ fs) (large : bs < p.psize + fhs)
    (room : 2 ≤ bs.toNat) :
    Tiled sizes ⟨p.split bs :: q, next, arrived⟩ (fs ++ [p.splitFrag bs]) := by
  have uid : (p.split bs).uid = p.uid := Packet.split_uid bs
  have own : (p.splitFrag bs).alpdu.uid = p.uid := Packet.label_uid
  obtain ⟨size, found, rest⟩ := h.queued p List.mem_cons_self
  have small : size < 2 ^ 31 := h.small size (List.mem_of_getElem? found)
  refine ⟨h.arrived, h.small, by simpa using h.uids, ?_, fun u size' found' absent => ?_,
    h.sent_head own⟩
  · refine List.forall_mem_cons.mpr ⟨⟨size, by rwa [uid], ?_⟩, fun a ha => ?_⟩
    · rw [uid, fragsOf_own own]
      exact rest.split small large room
    · rw [fragsOf_head own (h.head_uid a ha)]
      exact h.queued a (List.mem_cons_of_mem p ha)
  · have other : u ≠ p.uid := by
      rintro rfl
      exact absent _ List.mem_cons_self uid
    rw [fragsOf_head own other]
    apply h.gone u size' found'
    exact List.forall_mem_cons.mpr ⟨other.symm, fun a ha => absent a (List.mem_cons_of_mem _ ha)⟩

/-- The head fits and leaves the queue. -/
theorem rest (h : Tiled sizes ⟨p :: q, next, arrived⟩ fs) (next' : Fin 8 → BitVec 8) :
    Tiled sizes ⟨q, next', arrived⟩ (fs ++ [p.restFrag next]) := by
  have own : (p.restFrag next).alpdu.uid = p.uid := rfl
  refine ⟨h.arrived, h.small, (List.nodup_cons.mp h.uids).2, fun a ha => ?_,
    fun u size found absent => ?_, h.sent_head own⟩
  · rw [fragsOf_head own (h.head_uid a ha)]
    exact h.queued a (List.mem_cons_of_mem p ha)
  · by_cases here : u = p.uid
    · subst here
      obtain ⟨size', found', rest⟩ := h.queued p List.mem_cons_self
      obtain rfl := Option.some.inj (found'.symm.trans found)
      rw [fragsOf_own own]
      exact rest.rest next
    · rw [fragsOf_head own here]
      exact h.gone u size found (List.forall_mem_cons.mpr ⟨Ne.symm here, absent⟩)

theorem fill (h : Tiled sizes ⟨q, next, arrived⟩ fs) (room : 2 ≤ bs.toNat) :
    Tiled sizes ⟨(Sender.fill q next bs).1.1, (Sender.fill q next bs).1.2, arrived⟩
      (fs ++ (Sender.fill q next bs).2) := by
  induction q generalizing next bs fs with
  | nil => simpa [Sender.fill] using h
  | cons p q ih =>
      unfold Sender.fill
      split
      · next large => exact h.split large room
      · have rest := h.rest (p.advance next)
        split
        · next more =>
            have four : 4 ≤ (bs - (p.psize + fhs)).toNat := BitVec.le_def.mp more
            have left : 2 ≤ (bs - (p.psize + fhs)).toNat := by omega
            have later := ih rest left
            rwa [List.append_assoc] at later
        · exact rest

end Tiled

namespace MacRle

variable {s t : MacRle} {e : MacRleEvent} {es : List MacRleEvent}

/-- All fragments that have been sent, in order. -/
def frags (s : MacRle) : List Frag := s.air.flatMap Prod.snd

theorem slotHandler_sender (s : MacRle) (size : BitVec 32) :
    (s.slotHandler size).sender = (s.sender.slotHandler size).1 := by
  rw [slotHandler]
  split_ifs <;> rfl

theorem slotHandler_frags (s : MacRle) (size : BitVec 32) :
    (s.slotHandler size).frags = s.frags ++ (s.sender.slotHandler size).2 := by
  rw [slotHandler]
  split_ifs with empty
  · rw [empty, List.append_nil]
    rfl
  · simp [frags]

end MacRle

/-- `ch->size_ + alpdu_hdr_` of a packet that comes. -/
def MacRleEvent.size : MacRleEvent → Option ℕ
  | .recv _ _ size _ => some size.toNat
  | _ => none

/-- The sizes of the packets of a run, in the order of their numbers. -/
def sizes (es : List MacRleEvent) : List ℕ := es.filterMap MacRleEvent.size

theorem Tiled.step {s t : MacRle} {e : MacRleEvent} {past : List MacRleEvent}
    (h : Tiled (sizes past) s.sender s.frags) (stepped : s.step e = some t) :
    Tiled (sizes (past ++ [e])) t.sender t.frags := by
  rw [sizes, List.filterMap_append]
  cases e with
  | recv macDA prio size nonneg =>
      obtain rfl := Option.some.inj stepped
      exact h.recv macDA prio nonneg
  | slot size room =>
      obtain rfl := Option.some.inj stepped
      have same : past.filterMap MacRleEvent.size ++
          [MacRleEvent.slot size room].filterMap MacRleEvent.size = sizes past :=
        List.append_nil _
      rw [same, MacRle.slotHandler_sender, MacRle.slotHandler_frags]
      exact h.fill (MacRle.toNat_of_room room).1
  | reset =>
      obtain rfl := Option.some.inj stepped
      have same : past.filterMap MacRleEvent.size ++ [MacRleEvent.reset].filterMap
          MacRleEvent.size = sizes past :=
        List.append_nil _
      rw [same]
      exact h

/-- The fragments of a packet that has left the queue are the whole of it, in order,
and `psize` of a packet that is queued is what is missing of its `total_length`. -/
theorem fragments_tile {es : List MacRleEvent} {t : MacRle}
    (reach : run MacRle.step .fresh es = some t) :
    (∀ u size, (sizes es)[u]? = some size → (∀ p ∈ t.sender.queue, p.uid ≠ u) →
      Tiles size (fragsOf u t.frags)) ∧
      ∀ p ∈ t.sender.queue, ∃ size, (sizes es)[p.uid]? = some size ∧
        Rest size p (fragsOf p.uid t.frags) := by
  have start : Tiled (sizes []) MacRle.fresh.sender MacRle.fresh.frags := Tiled.init
  have any : Along MacRle.step (fun _ _ => True) .fresh es := along_of_forall fun _ _ _ => trivial
  have tiled := run_history_along (I := fun past s => Tiled (sizes past) s.sender s.frags) start any
    (fun _ _ _ _ h _ stepped => h.step stepped) reach
  exact ⟨tiled.gone, tiled.queued⟩

/-- A packet of 20 bytes and two slots that it needs. -/
def twoSlots : List MacRleEvent :=
  [.recv 1 (Fin.last 7) 20 (by decide), .slot 12 (by decide), .slot 15 (by decide)]

theorem fragments_tile_split :
    ∃ t, run MacRle.step .fresh twoSlots = some t ∧ Tiles 20 (fragsOf 0 t.frags) := by
  obtain ⟨t, reach⟩ : ∃ t, run MacRle.step .fresh twoSlots = some t := ⟨_, rfl⟩
  refine ⟨t, reach, (fragments_tile reach).1 0 20 rfl fun p hp => ?_⟩
  obtain rfl := Option.some.inj reach
  cases hp

end Mftdma.Rle
