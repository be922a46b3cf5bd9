import Mftdma.Mpeg.Packer

/-!
# The lookup tables of `MpegLL`

`tx_buffer` and `rx_buffer` are open-addressing tables, and both are emptied by
writing NULL. A slot that is emptied breaks the search for every packet that was
put further on because the slot was taken.
-/

namespace Mftdma.Mpeg

open Execution

/-- A packet of `psize` bytes fills the cell that its last byte is in: the open cell
`c`, or else one of the cells of 184 bytes that follow it. -/
def Cell.FilledBy (c : Cell) (psize : ℕ) : Prop :=
  if psize ≤ c.dvbSpace then c.dvbSpace - psize < c.reserve
  else 178 < (psize - c.dvbSpace - 1) % 184

namespace MpegLL

/-- An address has at most one slot in each table, and `get_queue` returns it. -/
def TablesFound (s : MpegLL) : Prop :=
  Probing.Found home s.txAddrs ∧ Probing.Found home s.rxAddrs

/-- The last of the fragments completes its packet. -/
def Completes (pid : ℕ) : Option RxPacket → List Frag → Prop
  | held, [] => held = none
  | held, f :: frags =>
      let r := RxPacket.collect pid held f
      Completes pid (if r.packet.size = r.length then none else some r) frags

/-- The step empties no slot that another packet of the table is searched through. -/
def Keeps (s : MpegLL) : Event → Prop
  | .send p => ∀ q c, s.txBuffer q = some c → c.addr = p.nextHop →
      c.FilledBy p.encapsulate.size → Probing.Removable home s.txAddrs q
  | .timer q => Probing.Removable home s.txAddrs q
  | .receive pid frags => ∀ q r, s.rxBuffer q = some r → r.addr = pid →
      Completes pid (some r) frags → Probing.Removable home s.rxAddrs q

theorem txAddrs_store (s : MpegLL) (q : Slot) (v : Option Cell) :
    (s.store q v).txAddrs = Function.update s.txAddrs q (v.map Cell.addr) :=
  Function.comp_update (Option.map Cell.addr) s.txBuffer q v

end MpegLL

open MpegLL

/-- Where the slot of an address is written, a right table stays right unless the
slot was held and is emptied for a reason `E` that it must not be. -/
theorem found_write_iff {γ : Type} {f : γ → ℕ} {buffer : Slot → Option γ} {a : ℕ} {q : Slot}
    {v : Option ℕ} {E : γ → Prop} (found : Probing.Found home fun l => (buffer l).map f)
    (looked : getQueue (fun l => (buffer l).map f) a = some q) (key : ∀ b, v = some b → b = a)
    (emptied : ∀ c, buffer q = some c → (v = none ↔ E c)) :
    Probing.Found home (Function.update (fun l => (buffer l).map f) q v) ↔
      ∀ q' c, buffer q' = some c → f c = a → E c →
        Probing.Removable home (fun l => (buffer l).map f) q' := by
  rw [found.write_iff looked key]
  constructor
  · rintro removable q' c held rfl why
    have here : (buffer q').map f = some (f c) := by rw [held, Option.map_some]
    obtain rfl := Option.some.inj (looked.symm.trans (found.lookup q' (f c) here))
    exact removable here ((emptied c held).mpr why)
  · intro keeps here empty
    obtain ⟨c, held, own⟩ := Option.map_eq_some_iff.mp here
    exact keeps q c held own ((emptied c held).mp empty)

section receive

variable {pid : ℕ} {w : Option RxPacket × List Packet} {frags : List Frag}

theorem accept_fst (pid : ℕ) (w : Option RxPacket × List Packet) (f : Frag) :
    (RxPacket.accept pid w f).1 =
      if (RxPacket.collect pid w.1 f).packet.size = (RxPacket.collect pid w.1 f).length then none
      else some (RxPacket.collect pid w.1 f) := by
  rw [RxPacket.accept]
  split_ifs <;> rfl

/-- The slot is empty after a cell whose last fragment completes its packet. -/
theorem foldl_accept_eq_none_iff :
    (frags.foldl (RxPacket.accept pid) w).1 = none ↔ Completes pid w.1 frags := by
  induction frags generalizing w with
  | nil => exact Iff.rfl
  | cons f frags ih =>
      rw [List.foldl_cons, ih, accept_fst]
      exact Iff.rfl

/-- What is in the slot has the address of the sender. -/
theorem foldl_accept_addr (init : ∀ r, w.1 = some r → r.addr = pid) :
    ∀ r, (frags.foldl (RxPacket.accept pid) w).1 = some r → r.addr = pid := by
  induction frags generalizing w with
  | nil => exact init
  | cons f frags ih =>
      apply ih
      intro r hr
      rw [accept_fst] at hr
      split_ifs at hr
      obtain rfl := Option.some.inj hr
      exact RxPacket.collect_addr pid w.1 f

end receive

namespace Packing

variable {a : Packing} {s : MpegLL} {q : Slot} {c : Cell} {p : Packet} {id : ℕ}

theorem finish_rxAddrs : (a.finish p q).rxAddrs = a.ll.rxAddrs := by
  rw [finish]
  split_ifs <;> rfl

theorem finish_txAddrs : (a.finish p q).txAddrs = Function.update a.ll.txAddrs q
    (if a.closing.dvbSpace < a.closing.reserve then none else some a.cell.addr) := by
  rw [finish]
  split_ifs with full
  · exact txAddrs_store _ q none
  · exact txAddrs_store _ q (some { a.closing with status := true })

/-- Packing a packet moves no cell of the table, and the last cell is for its next hop. -/
theorem fill_frame {k : ℕ} (h : (fill id p q).exec k (start id s p q) = some a) :
    a.ll.txBuffer = s.txBuffer ∧ a.ll.rxBuffer = s.rxBuffer ∧ a.cell.addr = p.nextHop := by
  obtain ⟨-, rfl | ⟨-, passed⟩⟩ := fill_exit h
  · exact ⟨start_txBuffer, start_rxBuffer, start_addr⟩
  · exact ⟨passed.txBuffer.trans start_txBuffer, passed.rxBuffer.trans start_rxBuffer,
      passed.addr⟩

/-- `FilledBy` says of the open cell how full the last one gets. -/
theorem nearlyFull_iff {k : ℕ} (held : s.txBuffer q = some c)
    (h : (fill id p q).exec k (start id s p q) = some a) :
    a.closing.dvbSpace < a.closing.reserve ↔ c.FilledBy p.size := by
  rw [start_of_some held] at h
  show a.cell.dvbSpace - a.psize < uleHdr + (if a.cell.pusi then 0 else 1) ↔ _
  obtain ⟨fits, rfl | ⟨long, passed⟩⟩ := fill_exit h
  · rw [Cell.FilledBy, if_pos fits]
    exact Iff.rfl
  · have psize := passed.psize
    have pos := passed.pos
    rw [passed.space] at fits
    rw [Cell.FilledBy, if_neg (Nat.not_le_of_lt long), passed.space, passed.pusi, uleHdr]
    simp only [Bool.false_eq_true, if_false] at psize ⊢
    omega

end Packing

namespace MpegLL

variable {s t : MpegLL} {q : Slot} {p : Packet} {id pid : ℕ} {frags : List Frag}

/-- `send_frags` writes the slot of the next hop. -/
theorem sendFrags_tables (sent : s.sendFrags id p = some t) :
    ∃ q v, getQueue s.txAddrs p.nextHop = some q ∧ t.rxAddrs = s.rxAddrs ∧
      t.txAddrs = Function.update s.txAddrs q v ∧ (∀ b, v = some b → b = p.nextHop) ∧
      ∀ c, s.txBuffer q = some c → (v = none ↔ c.FilledBy p.encapsulate.size) := by
  obtain ⟨q, a, looked, filled, rfl⟩ := sendFrags_eq_some.mp sent
  obtain ⟨txBuffer, rxBuffer, addr⟩ := Packing.fill_frame filled
  refine ⟨q, if a.closing.dvbSpace < a.closing.reserve then none else some p.nextHop, looked,
    ?_, ?_, ?_, ?_⟩
  · rw [Packing.finish_rxAddrs]
    funext l
    rw [rxAddrs, rxBuffer, rxAddrs]
  · have same : a.ll.txAddrs = s.txAddrs := by
      funext l
      rw [txAddrs, txBuffer, txAddrs]
    rw [Packing.finish_txAddrs, same, addr]
    rfl
  · intro b hb
    split_ifs at hb
    exact (Option.some.inj hb).symm
  · intro c held
    rw [← Packing.nearlyFull_iff held filled]
    simp only [ite_eq_left_iff, reduceCtorEq, imp_false, not_not]

/-- `sendUp` writes the slot of the sender. -/
theorem sendUp_tables (received : s.sendUp pid frags = some t) :
    ∃ q v, getQueue s.rxAddrs pid = some q ∧ t.txAddrs = s.txAddrs ∧
      t.rxAddrs = Function.update s.rxAddrs q v ∧ (∀ b, v = some b → b = pid) ∧
      ∀ r, s.rxBuffer q = some r → (v = none ↔ Completes pid (some r) frags) := by
  obtain ⟨q, looked, rfl⟩ := Option.map_eq_some_iff.mp received
  have held : ∀ r, s.rxBuffer q = some r → r.addr = pid := by
    intro r hr
    apply Probing.eq_of_lookup looked
    rw [rxAddrs, hr]
    rfl
  refine ⟨q, (frags.foldl (RxPacket.accept pid) (s.rxBuffer q, s.up)).1.map RxPacket.addr, looked,
    rfl, Function.comp_update (Option.map RxPacket.addr) s.rxBuffer q _, ?_, ?_⟩
  · intro b hb
    obtain ⟨r, hr, rfl⟩ := Option.map_eq_some_iff.mp hb
    exact foldl_accept_addr held r hr
  · intro r here
    rw [Option.map_eq_none_iff, foldl_accept_eq_none_iff, here]

/-- From tables that are right, a step leads to such tables exactly when it empties
no slot that is on the way to another packet. -/
theorem tablesFound_step_iff {e : Event} (placed : s.Placed) (found : s.TablesFound)
    (stepped : step id s e = some t) : t.TablesFound ↔ s.Keeps e := by
  cases e with
  | send p =>
      obtain ⟨q, v, looked, rx, tx, key, emptied⟩ := sendFrags_tables stepped
      rw [TablesFound, rx, tx, and_iff_left found.2]
      exact found_write_iff found.1 looked key emptied
  | timer q =>
      obtain ⟨c, held, rfl⟩ := timer_eq_some placed stepped
      show Probing.Found home ((s.sendDown c).store q none).txAddrs ∧ _ ↔ _
      rw [txAddrs_store]
      exact (and_iff_left found.2).trans (found.1.erase_iff q)
  | receive pid frags =>
      obtain ⟨q, v, looked, tx, rx, key, emptied⟩ := sendUp_tables stepped
      rw [TablesFound, tx, rx, and_iff_right found.1]
      exact found_write_iff found.2 looked key emptied

theorem tablesFound_init : init.TablesFound :=
  ⟨Probing.found_empty home, Probing.found_empty home⟩

end MpegLL

/-- In every run, `get_queue` keeps finding the packets of both tables exactly when no
step empties a slot that another packet of the table is searched through. -/
theorem tablesFound_iff (id : ℕ) (es : List Event) (t : MpegLL)
    (reach : run (step id) MpegLL.init es = some t) :
    Throughout (step id) MpegLL.TablesFound MpegLL.init es ↔
      Along (step id) MpegLL.Keeps MpegLL.init es :=
  throughout_iff_along placed_init tablesFound_init (fun _ _ _ placed => placed.step)
    (fun _ _ _ => tablesFound_step_iff) reach

/-- The hops 0 and 100 have the same home slot, and the timer empties it. -/
def sameHome : List Event :=
  [.send ⟨0, 0, 40⟩, .send ⟨1, 100, 40⟩, .timer 0, .send ⟨2, 100, 40⟩]

/-- The timer of the cell in slot 1 empties no slot that is needed. -/
theorem tablesFound_iff_flushed :
    Throughout (step 7) MpegLL.TablesFound MpegLL.init (sameHome.take 2 ++ [.timer 1]) ↔
      Along (step 7) MpegLL.Keeps MpegLL.init (sameHome.take 2 ++ [.timer 1]) := by
  have returned : (run (step 7) MpegLL.init (sameHome.take 2 ++ [.timer 1])).isSome = true := by
    decide +kernel
  obtain ⟨t, reach⟩ := Option.isSome_iff_exists.mp returned
  exact tablesFound_iff 7 _ t reach

/-- The third packet opens a second cell for its next hop. -/
theorem sameHome_not_found : ∃ t, run (step 7) MpegLL.init sameHome = some t ∧
    t.txAddrs 0 = some 100 ∧ t.txAddrs 1 = some 100 ∧
      ¬ Throughout (step 7) MpegLL.TablesFound MpegLL.init sameHome := by
  have slots : (run (step 7) MpegLL.init sameHome).map (fun t => (t.txAddrs 0, t.txAddrs 1)) =
      some (some 100, some 100) := by
    decide +kernel
  obtain ⟨t, reach, held⟩ := Option.map_eq_some_iff.mp slots
  obtain ⟨zero, one⟩ := Prod.mk.inj held
  refine ⟨t, reach, zero, one, fun found => ?_⟩
  exact absurd ((found.last reach).1.unique 0 1 100 zero one) (by decide)

end Mftdma.Mpeg
