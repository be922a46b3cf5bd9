import Mathlib.Tactic.Abel
import Mftdma.Rle.Receiver
import Mftdma.Rle.Sender

/-!
# Resynchronisation of a context

Whatever losses have left in a context, the first fragment of a packet puts that
packet into it, and its last fragment empties it and sets the number expected to
the one after its own. So the packet that follows is counted from zero and has
the number expected: `Train.deliver`.

Fragments of other identifiers have contexts of their own. They cannot disturb
this, except that the receiver crashes when it reads the header of a packet that
is not there.
-/

namespace Mftdma.Rle

open Execution

/-- The fragments of a packet after the first one: `rest` bytes are still to come,
and the last fragment has the number `n`. -/
inductive Tail (fid : Fin 8) (a : AlPdu) (n : BitVec 8) : BitVec 32 → List Frag → Prop
  | last (fh : Frag) (se : fh.startEnd = 1) (lane : fh.fragId = fid) (alpdu : fh.alpdu = a)
      (seqno : fh.seqno = n) : Tail fid a n fh.length [fh]
  | middle (fh : Frag) {rest : BitVec 32} {fs : List Frag} (se : fh.startEnd = 0)
      (lane : fh.fragId = fid) (alpdu : fh.alpdu = a)
      (later : Tail fid a n (rest - fh.length) fs) : Tail fid a n rest (fh :: fs)

/-- All fragments of a packet that was split. -/
inductive Train (fid : Fin 8) (a : AlPdu) (n : BitVec 8) : List Frag → Prop
  | first (fh : Frag) {fs : List Frag} (se : fh.startEnd = 2) (lane : fh.fragId = fid)
      (alpdu : fh.alpdu = a) (later : Tail fid a n (a.totalLength - fh.length) fs) :
      Train fid a n (fh :: fs)

/-- What the last fragment of a packet looks like. -/
structure Closes (fid : Fin 8) (a : AlPdu) (n : BitVec 8) (fh : Frag) : Prop where
  se : fh.startEnd = 1
  lane : fh.fragId = fid
  alpdu : fh.alpdu = a
  seqno : fh.seqno = n

theorem Tail.closes {fid : Fin 8} {a : AlPdu} {n : BitVec 8} {rest : BitVec 32} {fs : List Frag}
    (h : Tail fid a n rest fs) : ∃ pre fh, fs = pre ++ [fh] ∧ Closes fid a n fh := by
  induction h with
  | last fh se lane alpdu seqno => exact ⟨[], fh, rfl, se, lane, alpdu, seqno⟩
  | middle fh se lane alpdu later ih =>
      obtain ⟨pre, last, rfl, closes⟩ := ih
      exact ⟨fh :: pre, last, rfl, closes⟩

theorem Train.closes {fid : Fin 8} {a : AlPdu} {n : BitVec 8} {fs : List Frag} {fh : Frag}
    (h : Train fid a n (fs ++ [fh])) : Closes fid a n fh := by
  generalize whole : fs ++ [fh] = gs at h
  cases h with
  | first x se lane alpdu later =>
      obtain ⟨pre, last, rfl, closes⟩ := later.closes
      obtain ⟨-, same⟩ := List.append_inj' (whole.trans (List.cons_append ..).symm) rfl
      exact List.singleton_inj.mp same ▸ closes

/-- Fragments of split packets of one priority. -/
def splits (f : Fin 8) (fs : List Frag) : List Frag :=
  fs.filter fun fh => fh.fragId = f ∧ fh.startEnd ≠ 3

section sender

variable {w w' : Wire} {f : Fin 8} {a : AlPdu} {rest : BitVec 32} {fs : List Frag} {fh : Frag}

/-- What is to come of an open packet is a `Tail`, once the sender has closed it. -/
theorem Wire.Stream.tail (h : w.Stream fs w') (opened : w.opened f = some (a, rest))
    (closed : w'.opened f = none) :
    ∃ xs ys, fs = xs ++ ys ∧ Tail f a (w.next f) rest (splits f xs) := by
  induction h generalizing rest with
  | nil w =>
      rw [opened] at closed
      cases closed
  | @cons w w₁ w' fh fs step _ ih =>
      by_cases here : f = fh.fragId
      · subst here
        cases step with
        | whole se empty => rw [opened] at empty; cases empty
        | first se empty => rw [opened] at empty; cases empty
        | middle rest' se opened' =>
            obtain ⟨rfl, rfl⟩ : fh.alpdu = a ∧ rest' = rest := by
              rw [opened] at opened'
              cases opened'
              exact ⟨rfl, rfl⟩
            obtain ⟨xs, ys, rfl, tail⟩ := ih (Function.update_self ..) closed
            refine ⟨fh :: xs, ys, rfl, ?_⟩
            rw [splits, List.filter_cons_of_pos (by simp [se])]
            exact .middle fh se rfl rfl tail
        | last se opened' seqno =>
            obtain ⟨rfl, rfl⟩ : fh.alpdu = a ∧ fh.length = rest := by
              rw [opened] at opened'
              cases opened'
              exact ⟨rfl, rfl⟩
            refine ⟨[fh], fs, rfl, ?_⟩
            rw [splits, List.filter_cons_of_pos (by simp [se])]
            exact .last fh se rfl rfl seqno
      · obtain ⟨sameOpened, sameNext⟩ := step.other here
        obtain ⟨xs, ys, rfl, tail⟩ := ih (sameOpened.trans opened) closed
        refine ⟨fh :: xs, ys, rfl, ?_⟩
        rw [splits, List.filter_cons_of_neg (by simp [Ne.symm here]), ← sameNext]
        exact tail

/-- The sender's split packets are trains. -/
theorem Wire.Stream.train (h : w.Stream (fh :: fs) w') (se : fh.startEnd = 2)
    (closed : w'.opened fh.fragId = none) :
    ∃ xs ys, fs = xs ++ ys ∧
      Train fh.fragId fh.alpdu (w.next fh.fragId) (splits fh.fragId (fh :: xs)) := by
  cases h with
  | cons step later =>
      cases step with
      | whole se' => exact absurd (se.symm.trans se') (by decide)
      | middle _ se' => exact absurd (se.symm.trans se') (by decide)
      | last se' => exact absurd (se.symm.trans se') (by decide)
      | first se' empty new =>
          obtain ⟨xs, ys, rfl, tail⟩ := later.tail (Function.update_self ..) closed
          refine ⟨xs, ys, rfl, ?_⟩
          rw [splits, List.filter_cons_of_pos (by simp [se])]
          exact .first fh se rfl rfl tail

end sender

namespace Buffer

/-- The buffer after a fragment, whether the packet is sent up or dropped. -/
def absorb (b : Buffer AlPdu) (fh : Frag) : Option (Buffer AlPdu) :=
  (b.receive fh).map Prod.fst

variable {b : Buffer AlPdu} {fh : Frag} {a : AlPdu} {n : BitVec 8} {fid : Fin 8}
  {rest : BitVec 32} {fs : List Frag}

theorem absorb_middle (se : fh.startEnd = 0) :
    b.absorb fh = some { b with len := b.len + fh.length } := by
  simp [absorb, receive, add, start, se]

theorem absorb_first (se : fh.startEnd = 2) :
    ∃ sn, b.absorb fh = some { pkt := some fh.alpdu, expSn := sn, len := fh.length } ∧
      (b.pkt = none → sn = b.expSn) := by
  refine ⟨if b.pkt.isSome then b.expSn + 1 else b.expSn, ?_, fun empty => by simp [empty]⟩
  simp [absorb, receive, add, start, se]

/-- A last fragment closes a packet that is there, accepted or not. -/
theorem absorb_last (se : fh.startEnd = 1) (busy : b.pkt = some a) :
    ∃ b', b.absorb fh = some b' ∧ b'.pkt = none ∧ b'.expSn = fh.seqno + 1 := by
  obtain ⟨len, up, received⟩ := receive_last se busy
  refine ⟨⟨none, fh.seqno + 1, len⟩, ?_, rfl, rfl⟩
  rw [absorb, received, Option.map_some]

/-- The rest of a packet leaves the buffer empty and sets the number expected. -/
theorem absorb_tail (tail : Tail fid a n rest fs) (busy : b.pkt = some a) :
    ∃ b', run absorb b fs = some b' ∧ b'.pkt = none ∧ b'.expSn = n + 1 := by
  induction tail generalizing b with
  | last fh se lane alpdu seqno =>
      obtain ⟨b', result, empty, sn⟩ := absorb_last se busy
      exact ⟨b', by simp [result], empty, by rw [sn, seqno]⟩
  | middle fh se lane alpdu later ih =>
      obtain ⟨b', result, done⟩ := ih (b := { b with len := b.len + fh.length }) busy
      exact ⟨b', by rw [run_cons, absorb_middle se, Option.bind_some, result], done⟩

/-- If all of it is there and the number is right, the last fragment delivers it. -/
theorem deliver_tail (tail : Tail fid a n rest fs) (busy : b.pkt = some a)
    (len : b.len + rest = a.totalLength) (sn : b.expSn = n) :
    ∃ pre fh b', fs = pre ++ [fh] ∧ run absorb b pre = some b' ∧
      b'.receive fh = some ({ pkt := none, expSn := n + 1, len := 0 }, [a]) := by
  induction tail generalizing b with
  | last fh se lane alpdu seqno =>
      have accepts : b.Accepts fh := by
        refine ⟨?_, ?_⟩
        · simpa [add, start, se, alpdu] using len
        · simp [add, start, se, sn, seqno]
      exact ⟨[], fh, b, rfl, rfl, by simp [receive, se, accepts, add, start, busy, sn]⟩
  | @middle fh rest fs se lane alpdu later ih =>
      have counted : b.len + fh.length + (rest - fh.length) = a.totalLength := by
        rw [← len]
        abel
      obtain ⟨pre, last, b', rfl, result, done⟩ :=
        ih (b := { b with len := b.len + fh.length }) busy counted sn
      exact ⟨fh :: pre, last, b', rfl, by rw [run_cons, absorb_middle se, Option.bind_some, result],
        done⟩

/-- Two packets in a row, from whatever is in the buffer: the second is delivered. -/
theorem deliver_second {a' : AlPdu} {ts us : List Frag} (b : Buffer AlPdu)
    (first : Train fid a n ts) (second : Train fid a' (n + 1) (us ++ [fh])) :
    ∃ b', run absorb b (ts ++ us) = some b' ∧
      b'.receive fh = some ({ pkt := none, expSn := n + 1 + 1, len := 0 }, [a']) := by
  obtain ⟨b₁, reach₁, empty, sn⟩ : ∃ b₁, run absorb b ts = some b₁ ∧ b₁.pkt = none ∧
      b₁.expSn = n + 1 := by
    cases first with
    | first x se lane alpdu later =>
        obtain ⟨sn, result, -⟩ := absorb_first (b := b) se
        obtain ⟨b₁, reach, done⟩ := absorb_tail
          (b := { pkt := some x.alpdu, expSn := sn, len := x.length }) later (by rw [alpdu])
        exact ⟨b₁, by rw [run_cons, result, Option.bind_some, reach], done⟩
  generalize whole : us ++ [fh] = vs at second
  cases second with
  | @first y vs se lane alpdu later =>
      obtain ⟨sn', result, kept⟩ := absorb_first (b := b₁) se
      have counted : y.length + (a'.totalLength - y.length) = a'.totalLength := by abel
      obtain ⟨pre, last, b', rfl, reach, delivered⟩ := deliver_tail
        (b := { pkt := some y.alpdu, expSn := sn', len := y.length }) later (by rw [alpdu])
        counted ((kept empty).trans sn)
      obtain ⟨rfl, same⟩ := List.append_inj' (whole.trans (List.cons_append ..).symm) rfl
      obtain rfl := List.singleton_inj.mp same
      refine ⟨b', ?_, delivered⟩
      rw [run_append, reach₁, Option.bind_some, run_cons, result, Option.bind_some, reach]

end Buffer

section receiver

variable (index : ℤ) (src : ℕ) (fid : Fin 8)

/-- A fragment as it is heard, with the station that sent it. -/
def Receiver.hear (r : Receiver) (e : ℕ × Frag) : Option Receiver := r.recvFrag index e.1 e.2

/-- Fragments of split packets of the source and the identifier, for this station. -/
def Mine (e : ℕ × Frag) : Prop :=
  e.2.alpdu.macDA = index ∧ e.2.startEnd ≠ 3 ∧ e.1 = src ∧ e.2.fragId = fid

instance : DecidablePred (Mine index src fid) := fun _ => inferInstanceAs (Decidable (_ ∧ _))

/-- What may be heard in between: packets for other stations, unfragmented packets
and fragments of the other identifiers. -/
def Foreign (e : ℕ × Frag) : Prop :=
  e.2.alpdu.macDA ≠ index ∨ e.2.startEnd = 3 ∨ e.2.fragId ≠ fid

/-- The fragments that go to the context of the source and the identifier. -/
def mine (es : List (ℕ × Frag)) : List Frag :=
  (es.filter fun e => Mine index src fid e).map Prod.snd

/-- The last fragment of a packet passes the test of its context, and there is no
packet in that context. -/
def Receiver.ReadsNull (r : Receiver) (e : ℕ × Frag) : Prop :=
  e.2.alpdu.macDA = index ∧ e.2.startEnd ≠ 3 ∧ e.2.startEnd &&& 1 ≠ 0 ∧
    ∃ b, r.table.look e.1 e.2.fragId = some b ∧ b.Accepts e.2 ∧ (b.add e.2).pkt = none

/-- After `es`, the fragment `last` delivers its packet and leaves the context empty
and with the number after its own. -/
def Resyncs (r : Receiver) (es : List (ℕ × Frag)) (last : Frag) : Prop :=
  ∃ r₁ r₂ b, run (Receiver.hear index) r es = some r₁ ∧
    r₁.hear index (src, last) = some r₂ ∧ r₂.up = r₁.up ++ [last.alpdu] ∧
      r₂.table.lane src fid = some b ∧ b.pkt = none ∧ b.expSn = last.seqno + 1

end receiver

section frame

variable {index : ℤ} {src : ℕ} {fid : Fin 8} {r r' : Receiver} {e : ℕ × Frag}
  {es : List (ℕ × Frag)} {fl : List Slot}

theorem Buffer.receive_eq_none_iff {b : Buffer AlPdu} {fh : Frag} : b.receive fh = none ↔
    fh.startEnd &&& 1 ≠ 0 ∧ b.Accepts fh ∧ (b.add fh).pkt = none := by
  unfold Buffer.receive
  split_ifs with open_ accepts
  · exact iff_of_false (by simp) fun null => null.1 open_
  · rw [Option.map_eq_none_iff]
    exact ⟨fun null => ⟨open_, accepts, null⟩, fun null => null.2.2⟩
  · exact iff_of_false (by simp) fun null => accepts null.2.1

/-- Only a missing packet crashes the receiver. -/
theorem Receiver.hear_eq_none_iff (indexed : r.table.Indexed fl) :
    r.hear index e = none ↔ r.ReadsNull index e := by
  by_cases skipped : e.2.alpdu.macDA ≠ index ∨ e.2.startEnd = 3
  · obtain ⟨up, result⟩ := r.recvFrag_skip e.1 skipped
    rw [Receiver.hear, result]
    refine iff_of_false (by simp) fun null => ?_
    exact absurd skipped (not_or.mpr ⟨not_not.mpr null.1, null.2.1⟩)
  · obtain ⟨own, part⟩ := not_or.mp skipped
    have own := not_not.mp own
    obtain ⟨b, found, crash, effect⟩ := Receiver.recvFrag_lane e.1 indexed own part
    cases received : b.receive e.2 with
    | none =>
        obtain ⟨last, accepts, null⟩ := Buffer.receive_eq_none_iff.mp received
        exact iff_of_true (crash received) ⟨own, part, last, b, found, accepts, null⟩
    | some result =>
        obtain ⟨r', step, -⟩ := effect result.1 result.2 received
        refine iff_of_false (by simp [Receiver.hear, step]) ?_
        rintro ⟨-, -, last, b', found', accepts, null⟩
        obtain rfl := Option.some.inj (found.symm.trans found')
        rw [Buffer.receive_eq_none_iff.mpr ⟨last, accepts, null⟩] at received
        cases received

/-- Foreign fragments do not touch the context. -/
theorem Receiver.hear_foreign (src : ℕ) (indexed : r.table.Indexed fl)
    (foreign : Foreign index fid e) (step : r.hear index e = some r') :
    (∃ fl, r'.table.Indexed fl) ∧ r'.table.lane src fid = r.table.lane src fid := by
  by_cases skipped : e.2.alpdu.macDA ≠ index ∨ e.2.startEnd = 3
  · obtain ⟨up, result⟩ := r.recvFrag_skip e.1 skipped
    obtain rfl := Option.some.inj (result.symm.trans step)
    exact ⟨⟨fl, indexed⟩, rfl⟩
  · obtain ⟨own, part⟩ := not_or.mp skipped
    have other : e.2.fragId ≠ fid := by
      obtain away | whole | other := foreign
      · exact absurd away own
      · exact absurd whole part
      · exact other
    obtain ⟨b, -, crash, effect⟩ := Receiver.recvFrag_lane e.1 indexed (not_not.mp own) part
    cases received : b.receive e.2 with
    | none =>
        have stuck : r.hear index e = none := crash received
        rw [stuck] at step
        cases step
    | some result =>
        obtain ⟨r₁, same, -, indexed', -, others⟩ := effect result.1 result.2 received
        obtain rfl := Option.some.inj (same.symm.trans step)
        exact ⟨indexed', others src fid fun share =>
          other (Contexts.fid_eq_of_bucket_eq share).symm⟩

/-- The context of a source and an identifier has taken in the fragments `fs`. -/
structure Follows (src : ℕ) (fid : Fin 8) (r : Receiver) (fs : List Frag) : Prop where
  indexed : ∃ fl, r.table.Indexed fl
  lane : fs ≠ [] → ∃ b₀ b, run Buffer.absorb b₀ fs = some b ∧ r.table.lane src fid = some b

variable {fs : List Frag}

/-- What a fragment of the lane finds. -/
theorem Follows.look (h : Follows src fid r fs) :
    ∃ b₀ b, run Buffer.absorb b₀ fs = some b ∧ r.table.look src fid = some b := by
  obtain ⟨fl, indexed⟩ := h.indexed
  obtain ⟨b, found, used, -⟩ := indexed.look src fid
  by_cases empty : fs = []
  · subst empty
    exact ⟨b, b, rfl, found⟩
  · obtain ⟨b₀, d, reach, lane⟩ := h.lane empty
    obtain rfl := used d lane
    exact ⟨b₀, b, reach, found⟩

/-- A fragment of the lane is taken in, unless its buffer crashes. -/
theorem Follows.mine (h : Follows src fid r fs) (own : Mine index src fid e)
    (alive : ∀ b₀, (run Buffer.absorb b₀ (fs ++ [e.2])).isSome) :
    ∃ r', r.hear index e = some r' ∧ Follows src fid r' (fs ++ [e.2]) := by
  obtain ⟨toUs, part, rfl, rfl⟩ := own
  obtain ⟨b₀, b, reach, found⟩ := h.look
  obtain ⟨fl, indexed⟩ := h.indexed
  obtain ⟨b', found', -, effect⟩ := Receiver.recvFrag_lane e.1 indexed toUs part
  obtain rfl := Option.some.inj (found.symm.trans found')
  obtain ⟨b', after⟩ := Option.isSome_iff_exists.mp (alive b₀)
  obtain ⟨b₁, before, absorbed⟩ := run_snoc_eq_some.mp after
  obtain rfl := Option.some.inj (reach.symm.trans before)
  obtain ⟨result, received, rfl⟩ := Option.map_eq_some_iff.mp absorbed
  obtain ⟨r', step, -, indexed', lane, -⟩ := effect result.1 result.2 received
  exact ⟨r', step, indexed', fun _ => ⟨b₀, result.1, after, lane⟩⟩

theorem Follows.foreign (h : Follows src fid r fs) (foreign : Foreign index fid e)
    (step : r.hear index e = some r') : Follows src fid r' fs := by
  obtain ⟨fl, indexed⟩ := h.indexed
  obtain ⟨indexed', same⟩ := Receiver.hear_foreign src indexed foreign step
  refine ⟨indexed', fun some => ?_⟩
  obtain ⟨b₀, b, reach, lane⟩ := h.lane some
  exact ⟨b₀, b, reach, same.trans lane⟩

theorem mine_snoc (own : Mine index src fid e) :
    mine index src fid (es ++ [e]) = mine index src fid es ++ [e.2] := by
  simp [mine, own]

theorem Foreign.not_mine (foreign : Foreign index fid e) : ¬ Mine index src fid e := by
  rintro ⟨toUs, part, -, lane⟩
  obtain away | whole | other := foreign
  · exact away toUs
  · exact part whole
  · exact other lane

theorem mine_snoc_of_foreign (foreign : Foreign index fid e) :
    mine index src fid (es ++ [e]) = mine index src fid es := by
  have not : ¬ Mine index src fid e := foreign.not_mine
  simp [mine, not]

/-- The context follows its lane as long as no foreign fragment crashes. -/
theorem follows_run (indexed : r.table.Indexed fl)
    (mixed : ∀ e ∈ es, Mine index src fid e ∨ Foreign index fid e)
    (alive : ∀ b₀, (run Buffer.absorb b₀ (mine index src fid es)).isSome)
    (quiet : Along (Receiver.hear index) (fun r e => Foreign index fid e → ¬ r.ReadsNull index e)
      r es) :
    ∃ r', run (Receiver.hear index) r es = some r' ∧
      Follows src fid r' (mine index src fid es) := by
  induction es using List.reverseRecOn with
  | nil => exact ⟨r, rfl, ⟨fl, indexed⟩, fun some => absurd rfl some⟩
  | append_singleton es e ih =>
      obtain ⟨before, here⟩ := along_snoc_iff.mp quiet
      have mixed' := fun e' he' => mixed e' (List.mem_append_left [e] he')
      obtain own | foreign := mixed e (by simp)
      · rw [mine_snoc own] at alive ⊢
        have alive' : ∀ b₀, (run Buffer.absorb b₀ (mine index src fid es)).isSome := by
          intro b₀
          obtain ⟨b, reach⟩ := Option.isSome_iff_exists.mp (alive b₀)
          obtain ⟨b₁, first, -⟩ := run_snoc_eq_some.mp reach
          simp [first]
        obtain ⟨r₁, reach, follows⟩ := ih mixed' alive' before
        obtain ⟨r₂, step, follows'⟩ := follows.mine own alive
        exact ⟨r₂, run_snoc_eq_some.mpr ⟨r₁, reach, step⟩, follows'⟩
      · rw [mine_snoc_of_foreign foreign] at alive ⊢
        obtain ⟨r₁, reach, follows⟩ := ih mixed' alive before
        obtain ⟨fl₁, indexed₁⟩ := follows.indexed
        cases step : r₁.hear index e with
        | none =>
            have null := (Receiver.hear_eq_none_iff indexed₁).mp step
            exact absurd null (here r₁ reach foreign)
        | some r₂ =>
            exact ⟨r₂, run_snoc_eq_some.mpr ⟨r₁, reach, step⟩, follows.foreign foreign step⟩

/-- The table keeps its shape whatever is heard. -/
theorem Receiver.indexed_hear (indexed : ∃ fl, r.table.Indexed fl)
    (step : r.hear index e = some r') : ∃ fl, r'.table.Indexed fl := by
  obtain ⟨fl, indexed⟩ := indexed
  exact (Receiver.recvFrag_frame indexed step).1

theorem Receiver.indexed_run (indexed : r.table.Indexed fl)
    (reach : run (Receiver.hear index) r es = some r') : ∃ fl, r'.table.Indexed fl :=
  run_invariant (I := fun r : Receiver => ∃ fl, r.table.Indexed fl) ⟨fl, indexed⟩
    (fun _ _ _ ok step => Receiver.indexed_hear ok step) reach

/-- A run that goes on to its end has read no missing header. -/
theorem Receiver.quiet_of_run (fid : Fin 8) (indexed : r.table.Indexed fl)
    (reach : run (Receiver.hear index) r es = some r') :
    Along (Receiver.hear index) (fun r e => Foreign index fid e → ¬ r.ReadsNull index e) r es := by
  rw [along_iff_forall_split]
  rintro xs e ys m split before - null
  rw [split] at reach
  obtain ⟨m₁, step, -⟩ := run_cons_eq_some.mp (run_of_run_append before reach)
  obtain ⟨fl', indexed'⟩ := Receiver.indexed_run indexed before
  rw [(Receiver.hear_eq_none_iff indexed').mpr null] at step
  cases step

end frame

/-- From any state of a context, two complete packets in a row bring it back into
step and deliver the second one, exactly when no fragment heard in between reads
the header of a missing packet. -/
theorem resyncs_iff {index : ℤ} {src : ℕ} {fid : Fin 8} {a a' : AlPdu} {n : BitVec 8}
    {ts us : List Frag} {last : Frag} {r : Receiver} {fl : List Slot} {es : List (ℕ × Frag)}
    (indexed : r.table.Indexed fl) (first : Train fid a n ts)
    (second : Train fid a' (n + 1) (us ++ [last])) (toUs : a'.macDA = index)
    (lane : mine index src fid es = ts ++ us)
    (mixed : ∀ e ∈ es, Mine index src fid e ∨ Foreign index fid e) :
    Resyncs index src fid r es last ↔
      Along (Receiver.hear index) (fun r e => Foreign index fid e → ¬ r.ReadsNull index e) r es := by
  constructor
  · rintro ⟨r₁, -, -, reach, -⟩
    exact Receiver.quiet_of_run fid indexed reach
  · intro quiet
    have delivered := fun b => Buffer.deliver_second b first second
    have alive : ∀ b₀, (run Buffer.absorb b₀ (mine index src fid es)).isSome := by
      intro b₀
      obtain ⟨b, reach, -⟩ := delivered b₀
      rw [lane, reach]
      rfl
    obtain ⟨r₁, reach, follows⟩ := follows_run indexed mixed alive quiet
    obtain ⟨b₀, b, absorbed, found⟩ := follows.look
    obtain ⟨b', absorbed', received⟩ := delivered b₀
    rw [lane] at absorbed
    obtain rfl := Option.some.inj (absorbed.symm.trans absorbed')
    obtain ⟨se, rfl, rfl, seqno⟩ := second.closes
    obtain ⟨fl₁, indexed₁⟩ := follows.indexed
    obtain ⟨d, found', -, effect⟩ := Receiver.recvFrag_lane src indexed₁ toUs (by simp [se])
    obtain rfl := Option.some.inj (found.symm.trans found')
    obtain ⟨r₂, step, up, -, lane₂, -⟩ := effect _ _ received
    exact ⟨r₁, r₂, _, reach, step, up, lane₂, rfl, by rw [seqno]⟩

/-- Two packets of the highest priority and two of the lowest for station 1. The
heads of the low ones are lost, and the tail of the second comes between the two
packets of the high priority. -/
def strayTail : List Frag :=
  (Sender.init.bursts
    [.recv 1 (Fin.last 7) 20, .slot 12, .slot 15, .recv 1 (Fin.last 7) 20, .slot 15,
      .urgent 1 20, .slot 12, .slot 27, .urgent 1 20, .slot 12, .slot 15]).flatten

/-- The fragments `i` to `j - 1` of that stream, as station 1 hears them. -/
def strayTailHeard (i j : ℕ) : List (ℕ × Frag) :=
  ((strayTail.take j).drop i).map fun fh => (0, fh)

private theorem train_pair {fid : Fin 8} {a : AlPdu} {n : BitVec 8} {p q : Frag}
    (first : p.startEnd = 2 ∧ p.fragId = fid ∧ p.alpdu = a)
    (last : q.startEnd = 1 ∧ q.fragId = fid ∧ q.alpdu = a ∧ q.seqno = n)
    (total : a.totalLength - p.length = q.length) : Train fid a n [p, q] :=
  .first p first.1 first.2.1 first.2.2
    (total ▸ .last q last.1 last.2.1 last.2.2.1 last.2.2.2)

private theorem train_high_first :
    Train 0 ⟨2, 1, 23⟩ 0 [⟨2, 10, 0, 0, ⟨2, 1, 23⟩⟩, ⟨1, 13, 0, 0, ⟨2, 1, 23⟩⟩] :=
  train_pair (by decide) (by decide) (by decide)

private theorem train_high_second :
    Train 0 ⟨3, 1, 23⟩ (0 + 1) ([⟨2, 10, 0, 0, ⟨3, 1, 23⟩⟩] ++ [⟨1, 13, 0, 1, ⟨3, 1, 23⟩⟩]) :=
  train_pair (by decide) (by decide) (by decide)

/-- The heads of the packets of the high priority, without their tails. -/
def outOfStep : List (ℕ × Frag) := strayTailHeard 3 4 ++ strayTailHeard 6 7

/-- From a context that holds a packet of which the rest is lost, and with the low packet between
the other two, its head as well as its tail, the second packet of the high priority is
delivered. -/
theorem resyncs_outOfStep :
    ∃ r, run (Receiver.hear 1) (Receiver.init fun _ => Context.zero) outOfStep = some r ∧
      r.table.lane 0 0 = some ⟨some ⟨3, 1, 23⟩, 1, 10⟩ ∧
      Resyncs 1 0 0 r (strayTailHeard 2 7) ⟨1, 13, 0, 1, ⟨3, 1, 23⟩⟩ := by
  obtain ⟨fl, indexed⟩ := Contexts.indexed_init (P := AlPdu) fun _ => Context.zero
  have ends : (run (Receiver.hear 1) (Receiver.init fun _ => Context.zero) outOfStep).map
      (fun r => (r.table.lane 0 0, (run (Receiver.hear 1) r (strayTailHeard 2 7)).isSome)) =
        some (some ⟨some ⟨3, 1, 23⟩, 1, 10⟩, true) := by
    decide +kernel
  obtain ⟨r, reach, same⟩ := Option.map_eq_some_iff.mp ends
  obtain ⟨held, goesOn⟩ := Prod.mk.inj same
  obtain ⟨r', after⟩ := Option.isSome_iff_exists.mp goesOn
  obtain ⟨fl', indexed'⟩ := Receiver.indexed_run indexed reach
  have lanes : ∀ e ∈ strayTailHeard 2 7, Mine 1 0 0 e ∨ e.2.fragId ≠ 0 := by decide +kernel
  exact ⟨r, reach, held, (resyncs_iff indexed' train_high_first train_high_second rfl
    (by decide +kernel) fun e he => (lanes e he).imp_right fun other => .inr (.inr other)).mpr
      (Receiver.quiet_of_run 0 indexed' after)⟩

/-- With the tail alone, the receiver crashes between two complete packets. -/
theorem strayTail_not_resyncs :
    ∃ r a a' ts us last, run (Receiver.hear 1) (Receiver.init fun _ => Context.zero)
        (strayTailHeard 1 2) = some r ∧
      Train 0 a 0 ts ∧ Train 0 a' (0 + 1) (us ++ [last]) ∧
      mine 1 0 0 (strayTailHeard 3 7) = ts ++ us ∧
      (∀ e ∈ strayTailHeard 3 7, Mine 1 0 0 e ∨ Foreign 1 0 e) ∧
      ¬ Resyncs 1 0 0 r (strayTailHeard 3 7) last := by
  have crash : (run (Receiver.hear 1) (Receiver.init fun _ => Context.zero)
      (strayTailHeard 1 2 ++ strayTailHeard 3 7)).isNone := by decide +kernel
  have alive : (run (Receiver.hear 1) (Receiver.init fun _ => Context.zero)
      (strayTailHeard 1 2)).isSome := by decide +kernel
  obtain ⟨r, reach⟩ := Option.isSome_iff_exists.mp alive
  refine ⟨r, _, _, _, _, _, reach, train_high_first, train_high_second, by decide +kernel, ?_, ?_⟩
  · have lanes : ∀ e ∈ strayTailHeard 3 7, Mine 1 0 0 e ∨ e.2.fragId ≠ 0 := by decide +kernel
    exact fun e he => (lanes e he).imp_right fun other => .inr (.inr other)
  · rintro ⟨r₁, -, -, after, -⟩
    rw [run_append, reach, Option.bind_some, after] at crash
    cases crash

end Mftdma.Rle
