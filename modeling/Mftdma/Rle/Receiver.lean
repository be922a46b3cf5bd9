import Mftdma.Rle.Context
import Mftdma.Rle.Wire

/-!
# The receiving side of `MacRle`

`sendUp` goes through the fragments of a burst. A whole packet is sent up as it
is; any other fragment is added to the context of its source and identifier, and
the last one decides by length and sequence number whether the packet is sent up
or dropped.

`Contexts.lane` reads the table as one buffer for each identifier. A fragment
changes the buffer of its own identifier by `Buffer.receive` and no other.
-/

namespace Mftdma.Rle

open Execution

variable {P : Type}

namespace Buffer

/-- A first fragment takes the place of whatever was buffered. -/
def start (b : Buffer AlPdu) (fh : Frag) : Buffer AlPdu :=
  if fh.startEnd &&& 2 ≠ 0 then
    { pkt := some fh.alpdu
      expSn := if b.pkt.isSome then b.expSn + 1 else b.expSn
      len := 0 }
  else b

/-- The buffer with the bytes of the fragment. -/
def add (b : Buffer AlPdu) (fh : Frag) : Buffer AlPdu :=
  { b.start fh with len := (b.start fh).len + fh.length }

/-- The test made when the last fragment has been added. -/
def Accepts (b : Buffer AlPdu) (fh : Frag) : Prop :=
  (b.add fh).len = fh.alpdu.totalLength ∧ (b.add fh).expSn = fh.seqno

instance (b : Buffer AlPdu) (fh : Frag) : Decidable (b.Accepts fh) :=
  inferInstanceAs (Decidable (_ ∧ _))

/-- What one fragment does to the buffer, and the packets sent up; `none` when
the header of a NULL packet is read. -/
def receive (b : Buffer AlPdu) (fh : Frag) : Option (Buffer AlPdu × List AlPdu) :=
  if fh.startEnd &&& 1 = 0 then some (b.add fh, [])
  else if b.Accepts fh then
    (b.add fh).pkt.map fun p =>
      ({ pkt := none, expSn := (b.add fh).expSn + 1, len := 0 }, [p])
  else some ({ b.add fh with expSn := fh.seqno + 1, pkt := none }, [])

/-- Accepted or not, the number expected after a last fragment is the one after its own. -/
theorem receive_last {b : Buffer AlPdu} {fh : Frag} {a : AlPdu} (se : fh.startEnd = 1)
    (busy : b.pkt = some a) :
    ∃ len up, b.receive fh = some (⟨none, fh.seqno + 1, len⟩, up) := by
  by_cases accepts : b.Accepts fh
  · have expected : b.expSn = fh.seqno := by simpa [add, start, se] using accepts.2
    exact ⟨0, [a], by simp [receive, se, accepts, add, start, busy, expected]⟩
  · exact ⟨_, [], by simp [receive, se, accepts]; rfl⟩

end Buffer

namespace Contexts

/-- The fields that `sendUp` writes through `cp`. -/
def write (m : Contexts P) (cp : Slot) (b : Buffer P) : Contexts P :=
  { m with cbuffer := Function.update m.cbuffer cp { m.cbuffer cp with toBuffer := b } }

/-- The buffer in use for an identifier. -/
def lane (m : Contexts P) (src : ℕ) (fid : Fin 8) : Option (Buffer P) :=
  (m.cbuffer (bucket src fid)).head.map fun cp => (m.cbuffer cp).toBuffer

/-- The buffer that `get_context` would return. -/
def look (m : Contexts P) (src : ℕ) (fid : Fin 8) : Option (Buffer P) :=
  (m.getContext src fid).map fun got => (got.2.cbuffer got.1).toBuffer

end Contexts

/-- A receiving `MacRle` and the packets it has sent up. -/
structure Receiver where
  table : Contexts AlPdu
  up : List AlPdu

namespace Receiver

def init (memory : Slot → Context AlPdu) : Receiver where
  table := Contexts.init memory
  up := []

/-- The body of the loop of `sendUp`, for the station `index_` and a burst of the
source `src`. -/
def recvFrag (index : ℤ) (src : ℕ) (r : Receiver) (fh : Frag) : Option Receiver :=
  if fh.alpdu.macDA ≠ index then some r
  else if fh.startEnd = 3 then some { r with up := r.up ++ [fh.alpdu] }
  else
    (r.table.getContext src fh.fragId).bind fun got =>
      ((got.2.cbuffer got.1).toBuffer.receive fh).map fun result =>
        { table := got.2.write got.1 result.1, up := r.up ++ result.2 }

/-- `sendUp` -/
def sendUp (index : ℤ) (src : ℕ) (r : Receiver) (burst : List Frag) : Option Receiver :=
  run (recvFrag index src) r burst

end Receiver

namespace Contexts

variable {m m' : Contexts P} {cp : Slot} {src : ℕ} {fid : Fin 8} {fl : List Slot} {b : Buffer P}

theorem write_apply (m : Contexts P) (cp : Slot) (b : Buffer P) (j : Slot) :
    (m.write cp b).cbuffer j =
      { m.cbuffer j with toBuffer := if j = cp then b else (m.cbuffer j).toBuffer } := by
  by_cases here : j = cp
  · subst here
    simp [write]
  · simp [write, here]

/-- Writing to a context in use keeps the shape of the table. -/
theorem Indexed.write (h : m.Indexed fl) (used : cp ∉ fl) (b : Buffer P) :
    (m.write cp b).Indexed fl := by
  refine ⟨h.free.congr fun a _ => ?_, h.nodup, ?_, ?_, ?_⟩
  · rw [write_apply]
  · intro k cp' head
    rw [write_apply] at head ⊢
    exact h.chain k cp' head
  · intro a ha
    have other : a ≠ cp := fun same => used (same ▸ ha)
    rw [write_apply, if_neg other]
    exact h.clear a ha
  · simp only [write_apply]
    exact h.count

/-- A bucket that was not asked for keeps its head. -/
theorem Got.head_other (h : Got m src fid cp m') {k : Slot} (other : k ≠ bucket src fid) :
    (m'.cbuffer k).head = (m.cbuffer k).head := by
  cases h with
  | found head => rfl
  | created empty free => simp [create_apply, other]

/-- No other bucket has the context that is returned. -/
theorem Got.apart (h : Got m src fid cp m') (indexed : m.Indexed fl) {k cp' : Slot}
    (other : k ≠ bucket src fid) (head : (m.cbuffer k).head = some cp') : cp' ≠ cp := by
  rintro rfl
  obtain ⟨-, used, src', fid', srcEq, fidEq, place⟩ := indexed.chain k cp' head
  cases h with
  | found here =>
      obtain ⟨-, -, src'', fid'', srcEq', fidEq', place'⟩ := indexed.chain _ cp' here
      obtain rfl : src' = src'' := srcEq.symm.trans srcEq'
      obtain rfl : fid' = fid'' := Fin.ext (fidEq.symm.trans fidEq')
      exact other (place.symm.trans place')
  | created empty free =>
      have links := indexed.free
      rw [free] at links
      obtain ⟨rest, rfl⟩ := links.exists_cons
      exact used List.mem_cons_self

/-- Looking up leaves the buffers of the contexts in use as they are. -/
theorem Got.buffer_other (h : Got m src fid cp m') {j : Slot} (other : j ≠ cp) :
    (m'.cbuffer j).toBuffer = (m.cbuffer j).toBuffer := by
  cases h with
  | found head => rfl
  | created empty free => simp [create_apply, other]

theorem bucket_ne (src : ℕ) {g : Fin 8} (other : g ≠ fid) : bucket src g ≠ bucket src fid :=
  fun same => other (fid_eq_of_bucket_eq same)

/-- The buffer looked up is the one in use, or a new one. -/
theorem Indexed.look (h : m.Indexed fl) (src : ℕ) (fid : Fin 8) :
    ∃ b, m.look src fid = some b ∧ (∀ d, m.lane src fid = some d → b = d) ∧
      (m.lane src fid = none → b.pkt = none ∧ b.expSn = 0) := by
  obtain ⟨cp, m', result, got, -⟩ := h.getContext src fid
  refine ⟨(m'.cbuffer cp).toBuffer, by simp [Contexts.look, result], ?_, ?_⟩
  · intro d used
    cases got with
    | found head =>
        simp only [lane, head, Option.map_some, Option.some.injEq] at used
        exact used
    | created empty free => simp [lane, empty] at used
  · intro unused
    cases got with
    | found head => simp [lane, head] at unused
    | created empty free =>
        have links := h.free
        rw [free] at links
        obtain ⟨rest, rfl⟩ := links.exists_cons
        simp [create_apply, h.clear cp List.mem_cons_self]

end Contexts

namespace Receiver

variable {index : ℤ} {src : ℕ} {r r' : Receiver} {fh : Frag} {fl : List Slot}

/-- The effect of a fragment that is not for this station, or is a whole packet. -/
theorem recvFrag_skip (r : Receiver) (src : ℕ) (h : fh.alpdu.macDA ≠ index ∨ fh.startEnd = 3) :
    ∃ up, r.recvFrag index src fh = some { r with up := up } := by
  unfold recvFrag
  by_cases own : fh.alpdu.macDA = index
  · rw [if_neg (not_not.mpr own), if_pos (h.resolve_left (not_not.mpr own))]
    exact ⟨_, rfl⟩
  · rw [if_pos own]
    exact ⟨r.up, rfl⟩

/-- The effect of any other fragment: the buffer of its identifier receives it,
and those of the other buckets stay as they are. -/
theorem recvFrag_lane (src : ℕ) (h : r.table.Indexed fl) (own : fh.alpdu.macDA = index)
    (part : fh.startEnd ≠ 3) :
    ∃ b, r.table.look src fh.fragId = some b ∧
      (b.receive fh = none → r.recvFrag index src fh = none) ∧
      ∀ b' up, b.receive fh = some (b', up) → ∃ r', r.recvFrag index src fh = some r' ∧
        r'.up = r.up ++ up ∧ (∃ fl, r'.table.Indexed fl) ∧
        r'.table.lane src fh.fragId = some b' ∧
        ∀ src' g, bucket src' g ≠ bucket src fh.fragId →
          r'.table.lane src' g = r.table.lane src' g := by
  obtain ⟨cp, m', result, got, fl', indexed'⟩ := h.getContext src fh.fragId
  have unfolded : r.recvFrag index src fh =
      ((m'.cbuffer cp).toBuffer.receive fh).map fun result =>
        { table := m'.write cp result.1, up := r.up ++ result.2 } := by
    rw [recvFrag, if_neg (not_not.mpr own), if_neg part, result]
    rfl
  refine ⟨(m'.cbuffer cp).toBuffer, by simp [Contexts.look, result], ?_, ?_⟩
  · intro crash
    rw [unfolded, crash]
    rfl
  · intro b' up received
    refine ⟨_, by rw [unfolded, received]; rfl, rfl,
      ⟨fl', indexed'.write (indexed'.chain _ _ got.head).2.1 b'⟩, ?_, ?_⟩
    · simp [Contexts.lane, Contexts.write_apply, got.head]
    · intro src' g place
      simp only [Contexts.lane, Contexts.write_apply, got.head_other place]
      cases head : (r.table.cbuffer (bucket src' g)).head with
      | none => rfl
      | some cp' =>
          have apart := got.apart h place head
          simp [apart, got.buffer_other apart]

/-- No fragment breaks the table or touches the buffer of another identifier. -/
theorem recvFrag_frame (h : r.table.Indexed fl) (step : r.recvFrag index src fh = some r') :
    (∃ fl, r'.table.Indexed fl) ∧
      ∀ g ≠ fh.fragId, r'.table.lane src g = r.table.lane src g := by
  by_cases skipped : fh.alpdu.macDA ≠ index ∨ fh.startEnd = 3
  · obtain ⟨up, same⟩ := recvFrag_skip r src skipped
    obtain rfl := Option.some.inj (same.symm.trans step)
    exact ⟨⟨fl, h⟩, fun _ _ => rfl⟩
  · obtain ⟨own, part⟩ := not_or.mp skipped
    obtain ⟨b, -, crash, effect⟩ := recvFrag_lane src h (not_not.mp own) part
    cases received : b.receive fh with
    | none =>
        rw [crash received] at step
        cases step
    | some result =>
        obtain ⟨r₁, same, -, indexed, -, others⟩ := effect result.1 result.2 received
        obtain rfl := Option.some.inj (same.symm.trans step)
        exact ⟨indexed, fun g other => others src g (Contexts.bucket_ne src other)⟩

/-- What a fragment for this station has done, read off from the state after it. -/
theorem recvFrag_receive (h : r.table.Indexed fl) (own : fh.alpdu.macDA = index)
    (part : fh.startEnd ≠ 3) (step : r.recvFrag index src fh = some r') :
    ∃ b b' up, r.table.look src fh.fragId = some b ∧
      (∀ d, r.table.lane src fh.fragId = some d → b = d) ∧ b.receive fh = some (b', up) ∧
      r'.up = r.up ++ up ∧ r'.table.lane src fh.fragId = some b' := by
  obtain ⟨b, found, crash, effect⟩ := recvFrag_lane src h own part
  obtain ⟨d, found', used, -⟩ := h.look src fh.fragId
  obtain rfl := Option.some.inj (found.symm.trans found')
  cases received : b.receive fh with
  | none =>
      rw [crash received] at step
      cases step
  | some result =>
      obtain ⟨r₁, same, up, -, lane, -⟩ := effect result.1 result.2 received
      obtain rfl := Option.some.inj (same.symm.trans step)
      exact ⟨b, result.1, result.2, found, used, received, up, lane⟩

/-- A fragment that is not the last of its packet is added to its buffer. -/
theorem recvFrag_add (h : r.table.Indexed fl) (own : fh.alpdu.macDA = index)
    (open_ : fh.startEnd &&& 1 = 0) (step : r.recvFrag index src fh = some r') :
    ∃ b, r.table.look src fh.fragId = some b ∧
      (∀ d, r.table.lane src fh.fragId = some d → b = d) ∧
      r'.table.lane src fh.fragId = some (b.add fh) ∧ r'.up = r.up := by
  have part : fh.startEnd ≠ 3 := by
    intro whole
    rw [whole] at open_
    exact absurd open_ (by decide)
  obtain ⟨b, b', up, found, used, received, grown, lane⟩ := recvFrag_receive h own part step
  obtain ⟨rfl, rfl⟩ : b.add fh = b' ∧ [] = up := by
    rw [Buffer.receive, if_pos open_] at received
    exact Prod.mk.inj (Option.some.inj received)
  exact ⟨b, found, used, lane, by rw [grown, List.append_nil]⟩

/-- Bursts are received fragment by fragment. -/
theorem run_sendUp (index : ℤ) (src : ℕ) (r : Receiver) (bursts : List (List Frag)) :
    run (sendUp index src) r bursts = run (recvFrag index src) r bursts.flatten := by
  induction bursts generalizing r with
  | nil => rfl
  | cons burst bursts ih =>
      rw [run_cons, List.flatten_cons, run_append]
      exact Option.bind_congr fun r' _ => ih r'

end Receiver

end Mftdma.Rle
