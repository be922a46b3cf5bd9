import Mftdma.Mpeg.Packer

/-!
# The cells of `MpegLL`

A cell is sound when its payload and its header agree on how full it is, and all
of the payload is for the address of the cell. `send_frags` breaks this when the
payload it inserts into is that of another cell, when a fragment fills a cell whose
header goes down unchanged, and when a payload has no entry left.
-/

namespace Mftdma.Mpeg

open Execution

/-- The sum of `frag_size` over a payload. -/
def bytes (frags : List Frag) : ℕ := (frags.map Frag.size).sum

@[simp] theorem bytes_snoc (frags : List Frag) (p : Packet) (fsize : ℕ) :
    bytes (frags ++ [⟨p, fsize⟩]) = bytes frags + fsize := by
  simp [bytes]

/-- The entries of the payload are in its arrays, they fill what `dvb_space_` and
`pusi_` leave of 184 bytes, and they are of packets for the address of the cell. -/
structure Cell.Sound (c : Cell) (frags : List Frag) : Prop where
  inside : frags.length ≤ maxFrags
  balance : bytes frags + (if c.pusi then 1 else 0) + c.dvbSpace = 184
  addressed : ∀ f ∈ frags, f.packet.nextHop = c.addr

namespace MpegLL

/-- Every cell in `tx_buffer`, and every one handed to `sendDown`, is sound. -/
def CellsSound (s : MpegLL) : Prop := ∀ c, s.Carries c → c.Sound (s.heap c.payload)

/-- A packet opens a cell and fits into it, or it fits into the open cell of its next
hop, and `payload` points to the payload of that cell and has an entry left. -/
def FitsOwn (s : MpegLL) : Event → Prop
  | .send p => ∀ q, getQueue s.txAddrs p.nextHop = some q →
      match s.txBuffer q with
      | some c => c.payload = s.payload ∧ p.encapsulate.size ≤ c.dvbSpace ∧
          (s.heap c.payload).length < maxFrags
      | none => p.encapsulate.size ≤ 183
  | _ => True

end MpegLL

open MpegLL

namespace Packing

variable {a b : Packing} {s : MpegLL} {q : Slot} {d : Cell} {p : Packet} {id k : ℕ}

/-- `FitsOwn` for the cell that `send_frags` starts with. -/
def Fits (a : Packing) : Prop :=
  a.cell.payload = a.ll.payload ∧ a.psize ≤ a.cell.dvbSpace ∧
    (a.ll.heap a.cell.payload).length < maxFrags

theorem hold_heap : (a.hold q).heap = a.ll.heap := rfl

theorem hold_payload : (a.hold q).payload = a.ll.payload := rfl

theorem closing_pusi : a.closing.pusi = a.cell.pusi := rfl

theorem closing_dvbSpace : a.closing.dvbSpace = a.cell.dvbSpace - a.psize := rfl

theorem start_fits_iff : (start id s p q).Fits ↔
    match s.txBuffer q with
    | some c => c.payload = s.payload ∧ p.size ≤ c.dvbSpace ∧
        (s.heap c.payload).length < maxFrags
    | none => p.size ≤ 183 := by
  cases held : s.txBuffer q with
  | some c =>
      rw [start_of_some held]
      exact Iff.rfl
  | none =>
      rw [start_of_none held]
      have entry : ((s.newDvb id q).2.heap s.fresh).length < maxFrags := by
        simp [newDvb, maxFrags]
      exact ⟨fun h => h.2.1, fun h => ⟨rfl, h, entry⟩⟩

theorem insertFrag_heap_self (s : MpegLL) (p : Packet) (fsize : ℕ) :
    (s.insertFrag p fsize).heap s.payload = s.heap s.payload ++ [⟨p, fsize⟩] := by
  simp [insertFrag]

theorem insertFrag_heap_of_ne {i fsize : ℕ} (h : i ≠ s.payload) :
    (s.insertFrag p fsize).heap i = s.heap i := by
  simp [insertFrag, h]

/-- Opening a cell leaves all cells sound. -/
theorem sound_start (placed : s.Placed) (sound : s.CellsSound)
    (looked : getQueue s.txAddrs p.nextHop = some q) : ((start id s p q).hold q).CellsSound := by
  intro d carried
  cases held : s.txBuffer q with
  | some c =>
      have own : c.addr = p.nextHop := by
        apply Probing.eq_of_lookup looked
        rw [txAddrs, held]
        rfl
      rw [start_of_some held] at carried ⊢
      obtain rfl | other := carries_store.mp carried
      · have old := sound c (carries_of_txBuffer held)
        exact ⟨old.inside, old.balance, fun f hf => (old.addressed f hf).trans own⟩
      · exact sound d other.carries
  | none =>
      rw [start_of_none held] at carried ⊢
      obtain rfl | other := carries_store.mp carried
      · show Cell.Sound _ (Function.update s.heap s.fresh [] s.fresh)
        rw [Function.update_self]
        exact ⟨Nat.zero_le _, rfl, fun f hf => by cases hf⟩
      · have carried : s.Carries d := Others.carries other
        show d.Sound (Function.update s.heap s.fresh [] d.payload)
        rw [Function.update_of_ne (placed.made d carried).ne]
        exact sound d carried

/-- What soundness says once the rest of the packet is in the last cell. -/
theorem sound_finish_iff : (a.finish p q).CellsSound ↔
    a.closing.Sound ((a.ll.insertFrag p a.psize).heap a.cell.payload) ∧
      ∀ d, a.ll.Others q d → d.Sound ((a.ll.insertFrag p a.psize).heap d.payload) := by
  rw [finish]
  split_ifs with full
  · constructor
    · intro sound
      exact ⟨sound _ (carries_retire.mpr (.inl rfl)),
        fun d other => sound d (carries_retire.mpr (.inr other))⟩
    · rintro ⟨last, others⟩ d carried
      obtain rfl | other := carries_retire.mp carried
      · exact last
      · exact others d other
  · constructor
    · intro sound
      have last := sound _ (carries_store.mpr (.inl rfl))
      exact ⟨⟨last.inside, last.balance, last.addressed⟩,
        fun d other => sound d (carries_store.mpr (.inr other))⟩
    · rintro ⟨last, others⟩ d carried
      obtain rfl | other := carries_store.mp carried
      · exact ⟨last.inside, last.balance, last.addressed⟩
      · exact others d other

/-- A packet that fits into the cell of the current payload. -/
theorem Fits.sound (fits : a.Fits) (placed : (a.hold q).Placed) (sound : (a.hold q).CellsSound)
    (addr : a.cell.addr = p.nextHop) : (a.finish p q).CellsSound := by
  obtain ⟨own, room, entry⟩ := fits
  rw [sound_finish_iff]
  constructor
  · have last := sound a.cell (carries_store.mpr (.inl rfl))
    rw [own, insertFrag_heap_self, ← own]
    refine ⟨?_, ?_, ?_⟩
    · rw [List.length_append]
      exact entry
    · have balance := last.balance
      rw [hold_heap] at balance
      rw [bytes_snoc, closing_pusi, closing_dvbSpace]
      omega
    · intro f hf
      obtain old | new := List.mem_append.mp hf
      · exact last.addressed f old
      · obtain rfl := List.mem_singleton.mp new
        exact addr.symm
  · intro d other
    have apart : d.payload ≠ a.cell.payload :=
      placed.alone q a.cell (store_self a.ll q _) d (others_store.mpr other)
    rw [insertFrag_heap_of_ne (own ▸ apart)]
    exact sound d (carries_store.mpr (.inr other))

/-- A cell that counts more bytes for the same header is not sound. -/
theorem not_sound_snoc {frags : List Frag} {fsize : ℕ} (old : d.Sound frags) (pos : 0 < fsize) :
    ¬ d.Sound (frags ++ [⟨p, fsize⟩]) := by
  intro new
  have before := old.balance
  have after := new.balance
  rw [bytes_snoc] at after
  omega

/-- A packet that does not fit into the open cell leaves the current payload with the
bytes of its first fragment, which the header of that cell does not count. -/
theorem Passed.not_sound (passed : Passed p a b) (placed : (a.hold q).Placed)
    (sound : (a.hold q).CellsSound) : ¬ (b.finish p q).CellsSound := by
  intro after
  obtain ⟨-, others⟩ := sound_finish_iff.mp after
  have here : (a.hold q).txBuffer q = some a.cell := store_self a.ll q _
  obtain ⟨d, carried, current⟩ := placed.owned q a.cell here
  have kept : b.ll.Others q d := by
    obtain rfl | ⟨l, hl, held⟩ | gone := carries_store.mp carried
    · exact .inr passed.first
    · refine .inl ⟨l, hl, ?_⟩
      rw [passed.txBuffer]
      exact held
    · exact .inr (passed.sent d gone)
  have older : d.payload < a.ll.fresh := current.trans_lt placed.current
  have moved : d.payload ≠ b.ll.payload := (older.trans_le passed.payload).ne
  have bad := others d kept
  rw [insertFrag_heap_of_ne moved, passed.heap d.payload older, current, hold_payload,
    insertFrag_heap_self, ← hold_payload (q := q), ← current] at bad
  have room : 4 ≤ a.cell.dvbSpace := placed.room q a.cell here
  exact not_sound_snoc (sound d carried) (by omega) bad

/-- A packet that is put into the payload of another cell. -/
theorem fits_of_sound (sound : (a.hold q).CellsSound) (room : a.psize ≤ a.cell.dvbSpace)
    (pos : 0 < a.psize) (after : (a.finish p q).CellsSound) : a.Fits := by
  obtain ⟨last, -⟩ := sound_finish_iff.mp after
  have old := sound a.cell (carries_store.mpr (.inl rfl))
  have own : a.cell.payload = a.ll.payload := by
    by_contra other
    rw [insertFrag_heap_of_ne other] at last
    have before := old.balance
    have after := last.balance
    rw [hold_heap] at before
    rw [closing_pusi, closing_dvbSpace] at after
    omega
  refine ⟨own, room, ?_⟩
  have inside := last.inside
  rw [own, insertFrag_heap_self, ← own, List.length_append] at inside
  exact inside

/-- Packing from sound cells gives sound cells exactly when the packet fits. -/
theorem sound_iff_fits (placed : (a.hold q).Placed) (sound : (a.hold q).CellsSound)
    (addr : a.cell.addr = p.nextHop) (pos : 0 < a.psize)
    (filled : (fill id p q).exec k a = some b) : (b.finish p q).CellsSound ↔ a.Fits := by
  obtain ⟨room, rfl | ⟨long, passed⟩⟩ := fill_exit filled
  · exact ⟨fits_of_sound sound room pos, fun fits => fits.sound placed sound addr⟩
  · constructor
    · intro after
      exact absurd after (passed.not_sound placed sound)
    · rintro ⟨-, room, -⟩
      exact absurd long (Nat.not_lt_of_le room)

end Packing

namespace MpegLL

variable {s t : MpegLL} {id : ℕ}

theorem cellsSound_init : init.CellsSound := by
  rintro c (⟨l, held⟩ | gone)
  · cases held
  · cases gone

/-- From sound cells, a step leads to sound cells exactly when `FitsOwn` allows it. -/
theorem cellsSound_step_iff {e : Event} (placed : s.Placed) (sound : s.CellsSound)
    (stepped : step id s e = some t) : t.CellsSound ↔ s.FitsOwn e := by
  cases e with
  | send p =>
      obtain ⟨q, a, looked, filled, rfl⟩ := sendFrags_eq_some.mp stepped
      have pos : 0 < (Packing.start id s p.encapsulate q).psize := by
        rw [Packing.start_psize]
        exact Nat.lt_add_left p.size (by decide)
      rw [Packing.sound_iff_fits (Packing.placed_start placed)
        (Packing.sound_start (p := p.encapsulate) placed sound looked) Packing.start_addr pos
        filled, Packing.start_fits_iff]
      simp only [FitsOwn, looked, Option.some.injEq, forall_eq']
  | timer q =>
      obtain ⟨c, held, rfl⟩ := timer_eq_some placed stepped
      refine iff_of_true (fun d carried => ?_) trivial
      exact sound d ((carries_iff held).mpr (carries_retire.mp carried))
  | receive pid frags =>
      obtain ⟨q, -, rfl⟩ := Option.map_eq_some_iff.mp stepped
      exact iff_of_true sound trivial

end MpegLL

/-- In every run, all cells are sound exactly when every packet fits into a cell that
it opens or that has the current payload. -/
theorem cellsSound_iff (id : ℕ) (es : List Event) (t : MpegLL)
    (reach : run (step id) MpegLL.init es = some t) :
    Throughout (step id) MpegLL.CellsSound MpegLL.init es ↔
      Along (step id) MpegLL.FitsOwn MpegLL.init es :=
  throughout_iff_along placed_init cellsSound_init (fun _ _ _ placed => placed.step)
    (fun _ _ _ => cellsSound_step_iff) reach

/-- Two packets for the hop 1, before and after one for the hop 2. -/
def between : List Event := [.send ⟨0, 1, 40⟩, .send ⟨1, 2, 40⟩, .send ⟨2, 1, 40⟩]

/-- A timer separates the two cells. -/
theorem cellsSound_iff_flushed :
    Throughout (step 7) MpegLL.CellsSound MpegLL.init
        (between.take 1 ++ .timer 1 :: between.drop 1) ↔
      Along (step 7) MpegLL.FitsOwn MpegLL.init
        (between.take 1 ++ .timer 1 :: between.drop 1) := by
  have returned : (run (step 7) MpegLL.init
      (between.take 1 ++ .timer 1 :: between.drop 1)).isSome = true := by
    decide +kernel
  obtain ⟨t, reach⟩ := Option.isSome_iff_exists.mp returned
  exact cellsSound_iff 7 _ t reach

/-- The third packet goes into the cell for the hop 2. -/
theorem between_not_sound : ∃ t, run (step 7) MpegLL.init between = some t ∧
    (t.txBuffer 2).map (fun c => (c.addr, t.heap c.payload)) =
      some (2, [⟨⟨1, 2, 48⟩, 48⟩, ⟨⟨2, 1, 48⟩, 48⟩]) ∧
      ¬ Throughout (step 7) MpegLL.CellsSound MpegLL.init between := by
  have cell : (run (step 7) MpegLL.init between).map (fun t =>
      (t.txBuffer 2).map fun c => (c.addr, t.heap c.payload)) =
      some (some (2, [⟨⟨1, 2, 48⟩, 48⟩, ⟨⟨2, 1, 48⟩, 48⟩])) := by
    decide +kernel
  obtain ⟨t, reach, held⟩ := Option.map_eq_some_iff.mp cell
  refine ⟨t, reach, held, fun sound => ?_⟩
  obtain ⟨c, here, both⟩ := Option.map_eq_some_iff.mp held
  obtain ⟨addr, frags⟩ := Prod.mk.inj both
  have addressed := (sound.last reach c (MpegLL.carries_of_txBuffer here)).addressed
  rw [addr, frags] at addressed
  exact absurd (addressed ⟨⟨2, 1, 48⟩, 48⟩ (by simp)) (by decide)

end Mftdma.Mpeg
