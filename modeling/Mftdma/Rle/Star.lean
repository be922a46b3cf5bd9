import Mftdma.Execution.Lanes
import Mftdma.Rle.Resync
import Mftdma.Rle.RoundTrip

/-!
# Many senders and one receiver

The bursts of all terminals come to one receiver, which has one table of contexts for
them. `hub_lanes` says that the table is no more and no less than one buffer for each
bucket, whatever fragments come and whatever was lost before: sources that share a bucket
share a buffer, and all others do not notice each other.

Sources with different remainders modulo 64 have no bucket in common. If they all send to
the receiver and nothing is lost, each of them is served as in `round_trip`, in whatever
order the slots of the terminals come: `star_round_trip`.
-/

namespace Mftdma.Rle

open Execution

/-- What a fragment makes the receiver hand up. -/
def Receiver.gives (index : ℤ) (r : Receiver) (e : ℕ × Frag) : List AlPdu :=
  (r.hear index e).elim [] fun t => t.up.drop r.up.length

/-- The bucket that a fragment belongs to, if it is for the station `index`. -/
def place (index : ℤ) (e : ℕ × Frag) : Option Slot :=
  if e.2.alpdu.macDA = index then some (bucket e.1 e.2.fragId) else none

namespace Buffer

/-- A new context, whose `len` is whatever the memory held. -/
def blank (junk : BitVec 32) : Buffer AlPdu := ⟨none, 0, junk⟩

/-- The buffer after a fragment, which only a whole packet leaves as it is. -/
def turn (b : Buffer AlPdu) (e : ℕ × Frag) : Option (Buffer AlPdu) :=
  if e.2.startEnd = 3 then some b else (b.receive e.2).map Prod.fst

/-- The packets that go up with a fragment. -/
def emit (b : Buffer AlPdu) (e : ℕ × Frag) : List AlPdu :=
  if e.2.startEnd = 3 then [e.2.alpdu] else (b.receive e.2).elim [] Prod.snd

end Buffer

namespace Contexts

variable {P : Type}

/-- The buffer in use in a bucket. -/
def held (m : Contexts P) (q : Slot) : Option (Buffer P) :=
  (m.cbuffer q).head.map fun cp => (m.cbuffer cp).toBuffer

theorem lane_eq_held (m : Contexts P) (src : ℕ) (fid : Fin 8) :
    m.lane src fid = m.held (bucket src fid) := rfl

end Contexts

/-- The buffer of a bucket may be `b`: it is, or there is none and `b` is new. -/
def Holds (r : Receiver) (q : Slot) (b : Buffer AlPdu) : Prop :=
  r.table.held q = some b ∨ r.table.held q = none ∧ ∃ junk, b = .blank junk

theorem exists_bucket (q : Slot) : ∃ src fid, bucket src fid = q := by
  have small : q.val / 8 * 8 + q.val % 8 < maxCnts := by
    rw [Nat.div_add_mod']
    exact q.isLt
  refine ⟨q.val / 8, ⟨q.val % 8, Nat.mod_lt _ (by decide)⟩, Fin.ext ?_⟩
  show ((q.val / 8) <<< 3 + q.val % 8) % maxCnts = q.val
  rw [Nat.shiftLeft_eq, Nat.mod_eq_of_lt small, Nat.div_add_mod']

section lanes

variable {index : ℤ} {r t : Receiver} {e : ℕ × Frag} {q : Slot} {b c : Buffer AlPdu}

theorem place_eq_some (h : place index e = some q) :
    e.2.alpdu.macDA = index ∧ bucket e.1 e.2.fragId = q := by
  unfold place at h
  split_ifs at h with own
  exact ⟨own, Option.some.inj h⟩

/-- A lookup finds what the bucket may hold. -/
theorem holds_of_look {fl : List Slot} (h : r.table.Indexed fl) {src : ℕ} {fid : Fin 8}
    (found : r.table.look src fid = some b) : Holds r (bucket src fid) b := by
  obtain ⟨d, found', used, new⟩ := h.look src fid
  obtain rfl := Option.some.inj (found.symm.trans found')
  cases lane : r.table.lane src fid with
  | some d => exact .inl (lane.trans (congrArg some (used d lane).symm))
  | none =>
      obtain ⟨pkt, sn⟩ := new lane
      exact .inr ⟨lane, b.len, by cases b; simp_all [Buffer.blank]⟩

theorem Holds.eq_of_held (h : Holds t q c) (here : t.table.held q = some b) : c = b := by
  obtain held | ⟨none, -⟩ := h
  · exact Option.some.inj (held.symm.trans here)
  · rw [none] at here
    cases here

/-- A fragment leaves the buffers of the other buckets alone. -/
theorem recvFrag_elsewhere {src : ℕ} {fh : Frag} {fl : List Slot} (h : r.table.Indexed fl)
    (step : r.recvFrag index src fh = some t)
    (other : fh.alpdu.macDA = index → q ≠ bucket src fh.fragId) :
    t.table.held q = r.table.held q := by
  by_cases skipped : fh.alpdu.macDA ≠ index ∨ fh.startEnd = 3
  · obtain ⟨up, same⟩ := r.recvFrag_skip src skipped
    obtain rfl := Option.some.inj (same.symm.trans step)
    rfl
  · obtain ⟨own, part⟩ := not_or.mp skipped
    have own := not_not.mp own
    obtain ⟨b, -, crash, effect⟩ := Receiver.recvFrag_lane src h own part
    cases received : b.receive fh with
    | none =>
        rw [crash received] at step
        cases step
    | some result =>
        obtain ⟨t', same, -, -, -, others⟩ := effect result.1 result.2 received
        obtain rfl := Option.some.inj (same.symm.trans step)
        obtain ⟨src', g, rfl⟩ := exists_bucket q
        exact others src' g (other own)

/-- A fragment that is not a whole packet, as a turn of the buffer of its bucket. -/
theorem hear_part {fl : List Slot} (h : r.table.Indexed fl) (own : e.2.alpdu.macDA = index)
    (part : e.2.startEnd ≠ 3) : ∃ b, Holds r (bucket e.1 e.2.fragId) b ∧
      (b.turn e = none → r.hear index e = none) ∧
      ∀ c, b.turn e = some c → ∃ t, r.hear index e = some t ∧ t.up = r.up ++ b.emit e ∧
        t.table.held (bucket e.1 e.2.fragId) = some c := by
  obtain ⟨b, found, crash, effect⟩ := Receiver.recvFrag_lane e.1 h own part
  refine ⟨b, holds_of_look h found, fun stuck => crash ?_, fun c turned => ?_⟩
  · rwa [Buffer.turn, if_neg part, Option.map_eq_none_iff] at stuck
  · rw [Buffer.turn, if_neg part] at turned
    obtain ⟨⟨c', up⟩, received, rfl⟩ := Option.map_eq_some_iff.mp turned
    obtain ⟨t, step, grown, -, lane, -⟩ := effect c' up received
    refine ⟨t, step, ?_, lane⟩
    rw [grown, Buffer.emit, if_neg part, received]
    rfl

theorem hear_whole (own : e.2.alpdu.macDA = index) (whole : e.2.startEnd = 3) :
    r.hear index e = some { r with up := r.up ++ [e.2.alpdu] } := by
  rw [Receiver.hear, Receiver.recvFrag, if_neg (not_not.mpr own), if_pos whole]

theorem gives_of_up {given : List AlPdu} (step : r.hear index e = some t)
    (up : t.up = r.up ++ given) : r.gives index e = given := by
  rw [Receiver.gives, step, Option.elim_some, up, List.drop_left]

/-- The table of contexts is one buffer for each bucket. -/
theorem hub_lanes (index : ℤ) :
    Lanes (Receiver.hear index) (Receiver.gives index) (place index) Buffer.turn Buffer.emit
      (fun r => ∃ fl, r.table.Indexed fl) Holds where
  keep r e t h step := by
    obtain ⟨fl, indexed⟩ := h
    exact (Receiver.recvFrag_frame indexed step).1
  total r q h := by
    cases here : r.table.held q with
    | some b => exact ⟨b, .inl here⟩
    | none => exact ⟨.blank 0, .inr ⟨here, 0, rfl⟩⟩
  own r e t q c h step key rep := by
    obtain ⟨fl, indexed⟩ := h
    obtain ⟨own, rfl⟩ := place_eq_some key
    by_cases whole : e.2.startEnd = 3
    · have same := hear_whole (r := r) own whole
      obtain rfl := Option.some.inj (same.symm.trans step)
      exact ⟨c, rep, if_pos whole, (if_pos whole).trans (gives_of_up same rfl).symm⟩
    · obtain ⟨b, before, crash, effect⟩ := hear_part indexed own whole
      cases turned : b.turn e with
      | none =>
          rw [crash turned] at step
          cases step
      | some c' =>
          obtain ⟨t', same, up, here⟩ := effect c' turned
          obtain rfl := Option.some.inj (same.symm.trans step)
          obtain rfl := rep.eq_of_held here
          exact ⟨b, before, turned, (gives_of_up same up).symm⟩
  other r e t q c h step key rep := by
    obtain ⟨fl, indexed⟩ := h
    have away : e.2.alpdu.macDA = index → q ≠ bucket e.1 e.2.fragId := by
      rintro own rfl
      exact key (if_pos own)
    rwa [Holds, recvFrag_elsewhere indexed step away] at rep
  stuck r e h fails := by
    obtain ⟨fl, indexed⟩ := h
    by_cases skipped : e.2.alpdu.macDA ≠ index ∨ e.2.startEnd = 3
    · obtain ⟨up, same⟩ := r.recvFrag_skip e.1 skipped
      cases same.symm.trans fails
    · obtain ⟨own, part⟩ := not_or.mp skipped
      have own := not_not.mp own
      obtain ⟨b, before, -, effect⟩ := hear_part indexed own part
      refine ⟨_, b, if_pos own, before, ?_⟩
      cases turned : b.turn e with
      | none => rfl
      | some c =>
          obtain ⟨t, same, -⟩ := effect c turned
          cases same.symm.trans fails

end lanes

/-- The source and the identifier of a fragment, if it is for the station `index`. -/
def pair (index : ℤ) (e : ℕ × Frag) : Option (ℕ × Fin 8) :=
  if e.2.alpdu.macDA = index then some (e.1, e.2.fragId) else none

/-- No other pair that is heard shares the bucket of this one. -/
def Alone (index : ℤ) (es : List (ℕ × Frag)) (src : ℕ) (fid : Fin 8) : Prop :=
  ∀ e ∈ es, e.2.alpdu.macDA = index → bucket e.1 e.2.fragId = bucket src fid → e.1 = src

theorem Alone.place_iff {index : ℤ} {es : List (ℕ × Frag)} {src : ℕ} {fid : Fin 8}
    (h : Alone index es src fid) (e : ℕ × Frag) (he : e ∈ es) :
    pair index e = some (src, fid) ↔ place index e = some (bucket src fid) := by
  unfold pair place
  split_ifs with own
  · rw [Option.some.injEq, Option.some.injEq, Prod.mk.injEq]
    constructor
    · rintro ⟨rfl, rfl⟩
      rfl
    · exact fun same => ⟨h e he own same, Contexts.fid_eq_of_bucket_eq same⟩
  · exact Iff.rfl

/-- Whatever comes in, from whatever sources and after whatever losses, the receiver is one
buffer for each bucket: it crashes exactly when one of these would, and hands up what they
do. A source and identifier that share their bucket with no others are served as if only
their fragments had been heard. -/
theorem hub_split (index : ℤ) (memory : Slot → Context AlPdu) (es : List (ℕ × Frag)) :
    ∃ junk : Slot → BitVec 32,
      ((run (Receiver.hear index) (Receiver.init memory) es).isSome = true ↔
        ∀ q, (run Buffer.turn (.blank (junk q)) (ofKey (place index) q es)).isSome = true) ∧
      ((run (Receiver.hear index) (Receiver.init memory) es).isSome = true →
        (∀ q, outputsOf (Receiver.hear index) (Receiver.gives index) (place index) q
            (Receiver.init memory) es =
          outputs Buffer.turn Buffer.emit (.blank (junk q)) (ofKey (place index) q es)) ∧
        ∀ src fid, Alone index es src fid →
          outputsOf (Receiver.hear index) (Receiver.gives index) (pair index) (src, fid)
              (Receiver.init memory) es =
            outputs Buffer.turn Buffer.emit (.blank (junk (bucket src fid)))
              (ofKey (pair index) (src, fid) es)) := by
  obtain ⟨start, rep, ends, follows⟩ :=
    (hub_lanes index).split (s := Receiver.init memory) (Contexts.indexed_init memory) es
  have new : ∀ q, ∃ junk, start q = .blank junk := by
    intro q
    obtain held | ⟨-, junk⟩ := rep q
    · cases held
    · exact junk
  choose junk blank using new
  obtain rfl : start = fun q => .blank (junk q) := funext blank
  refine ⟨junk, ends, fun returned => ?_⟩
  obtain ⟨t, reach⟩ := Option.isSome_iff_exists.mp returned
  have buckets := fun q => (follows t reach q).same.symm
  refine ⟨buckets, fun src fid alone => ?_⟩
  rw [outputsOf_congr alone.place_iff, ofKey_congr alone.place_iff]
  exact buckets (bucket src fid)

section star

variable {ι : Type*} [DecidableEq ι]

/-- The fragments that the terminals put on the air, in the order of their slots. -/
def uplink : (ι → Sender) → List (ι × SenderEvent) → List (ι × Frag)
  | _, [] => []
  | s, (i, e) :: es =>
      ((s i).step e).2.map (Prod.mk i) ++ uplink (Function.update s i ((s i).step e).1) es

/-- The packets of the last and whole fragments, with the terminals they come from. -/
def completedBy (fs : List (ι × Frag)) : List (ι × AlPdu) :=
  (fs.filter fun x => x.2.startEnd &&& 1 ≠ 0).map fun x => (x.1, x.2.alpdu)

/-- A fragment as the receiver hears it when the terminal `i` has the number `src i`. -/
def heardFrom (src : ι → ℕ) (x : ι × Frag) : ℕ × Frag := (src x.1, x.2)

/-- Each terminal sends as if it were alone. -/
theorem own_uplink (s : ι → Sender) (es : List (ι × SenderEvent)) (i : ι) :
    own i (uplink s es) = ((s i).bursts (own i es)).flatten := by
  induction es generalizing s with
  | nil => rfl
  | cons x es ih =>
      obtain ⟨j, e⟩ := x
      rw [uplink, own_append, ih]
      by_cases here : j = i
      · subst here
        rw [own_map_self, own_cons_self, Function.update_self, Sender.bursts, List.flatten_cons]
      · rw [own_map_other here, own_cons_other here, Function.update_of_ne (Ne.symm here),
          List.nil_append]

theorem own_completedBy (fs : List (ι × Frag)) (i : ι) :
    own i (completedBy fs) = completed (own i fs) := by
  induction fs with
  | nil => rfl
  | cons x fs ih =>
      obtain ⟨j, fh⟩ := x
      by_cases last : fh.startEnd &&& 1 = 0
      · have skip : completedBy ((j, fh) :: fs) = completedBy fs := by
          rw [completedBy, List.filter_cons_of_neg (by simpa using last)]
          rfl
        rw [skip, ih]
        by_cases here : j = i
        · subst here
          rw [own_cons_self, completed_cons_of_open last]
        · rw [own_cons_other here]
      · have take : completedBy ((j, fh) :: fs) = (j, fh.alpdu) :: completedBy fs := by
          rw [completedBy, List.filter_cons_of_pos (by simpa using last)]
          rfl
        rw [take]
        by_cases here : j = i
        · subst here
          rw [own_cons_self, own_cons_self, completed_cons_of_last last, ih]
        · rw [own_cons_other here, own_cons_other here, ih]

omit [DecidableEq ι] in
theorem completedBy_map_snd (fs : List (ι × Frag)) :
    (completedBy fs).map Prod.snd = completed (fs.map Prod.snd) := by
  rw [completedBy, completed, List.map_map, List.filter_map, List.map_map]
  rfl

/-- Sources with different remainders have no bucket in common. -/
theorem bucket_ne_of_mod {src src' : ℕ} (apart : src % 64 ≠ src' % 64) (fid fid' : Fin 8) :
    bucket src fid ≠ bucket src' fid' := by
  intro same
  have fids := Contexts.fid_eq_of_bucket_eq same
  have vals := congrArg Fin.val same
  simp only [bucket, maxCnts, Nat.shiftLeft_eq] at vals
  omega

variable {index : ℤ} {src src' : ℕ} {w : Wire} {fs : List Frag} {r r' : Receiver}

theorem Sync.congr (h : Sync index src w fs r) (indexed : ∃ fl, r'.table.Indexed fl)
    (same : ∀ f, r'.table.lane src f = r.table.lane src f) : Sync index src w fs r' :=
  ⟨indexed, fun f => ⟨same f ▸ (h.lane f).pkt, same f ▸ (h.lane f).sn, (h.lane f).next⟩⟩

theorem Carries.congr (h : Carries index src w r)
    (same : ∀ f, r'.table.lane src f = r.table.lane src f) : Carries index src w r' := by
  intro f a rest opened mine
  obtain ⟨b, lane, counted⟩ := h f a rest opened mine
  exact ⟨b, (same f).trans lane, counted⟩

theorem Wire.Stream.eq_of_nil {w' : Wire} (h : w.Stream [] w') : w' = w := by
  cases h
  rfl

/-- The receiver keeps up with every terminal, and hands a packet up when its last
fragment comes. -/
theorem star_run {src : ι → ℕ} (apart : ∀ i j, i ≠ j → src i % 64 ≠ src j % 64)
    (memory : Slot → Context AlPdu) {fs : List (ι × Frag)} {w : ι → Wire}
    (legal : ∀ i, Legal (own i fs) (w i)) (toUs : ∀ x ∈ fs, x.2.alpdu.macDA = index) :
    ∃ r, run (Receiver.hear index) (Receiver.init memory) (fs.map (heardFrom src)) = some r ∧
      (∀ i, Sync index (src i) (w i) (own i fs) r ∧ Carries index (src i) (w i) r) ∧
      r.up = completed (fs.map Prod.snd) := by
  induction fs using List.reverseRecOn generalizing w with
  | nil =>
      refine ⟨_, rfl, fun i => ?_, rfl⟩
      rw [Wire.Stream.eq_of_nil (legal i)]
      refine ⟨sync_init index (src i) memory, ?_⟩
      rintro f a rest ⟨⟩
  | append_singleton fs x ih =>
      obtain ⟨i, fh⟩ := x
      have mine : own i (fs ++ [(i, fh)]) = own i fs ++ [fh] := by
        rw [own_append, own_cons_self]
        rfl
      have theirs : ∀ j, j ≠ i → own j (fs ++ [(i, fh)]) = own j fs := by
        intro j other
        rw [own_append, own_cons_other (Ne.symm other)]
        exact List.append_nil _
      obtain ⟨w₀, legal₀, sends⟩ := legal_snoc_iff.mp (mine ▸ legal i)
      have before : ∀ j, Legal (own j fs) (Function.update w i w₀ j) := by
        intro j
        by_cases here : j = i
        · subst here
          rwa [Function.update_self]
        · rw [Function.update_of_ne here, ← theirs j here]
          exact legal j
      obtain ⟨r, reach, kept, up⟩ := ih before fun y hy => toUs y (List.mem_append_left _ hy)
      have toUs₀ : ∀ g ∈ own i fs, g.alpdu.macDA = index := by
        intro g hg
        obtain ⟨y, hy, rfl⟩ := List.mem_map.mp hg
        exact toUs y (List.mem_append_left _ (List.mem_of_mem_filter hy))
      obtain ⟨sync, carries⟩ := kept i
      rw [Function.update_self] at sync carries
      obtain ⟨t, step, sync', carries', grown⟩ :=
        sync.deliver carries toUs₀ sends (toUs (i, fh) (by simp))
      refine ⟨t, ?_, fun j => ?_, ?_⟩
      · rw [List.map_append]
        exact run_snoc_eq_some.mpr ⟨r, reach, step⟩
      · by_cases here : j = i
        · subst here
          rw [mine]
          exact ⟨sync', carries'⟩
        · obtain ⟨syncj, carriesj⟩ := kept j
          rw [Function.update_of_ne here] at syncj carriesj
          obtain ⟨fl, indexed⟩ := sync.indexed
          have same : ∀ f, t.table.lane (src j) f = r.table.lane (src j) f := fun f =>
            recvFrag_elsewhere indexed step fun _ => bucket_ne_of_mod (apart j i here) _ _
          rw [theirs j here]
          exact ⟨syncj.congr sync'.indexed same, carriesj.congr same⟩
      · rw [grown, up, List.map_append, completed_append]
        rfl

/-- The packets of a terminal go to the station `index`. -/
theorem toOne_own {es : List (ι × SenderEvent)}
    (toHub : ∀ i macDA prio size, (i, SenderEvent.recv macDA prio size) ∈ es → macDA = index)
    (i : ι) : ToOne index (own i es) := by
  intro macDA prio size mem
  obtain ⟨⟨j, e⟩, inside, rfl⟩ := List.mem_map.mp mem
  exact toHub j macDA prio size (List.mem_of_mem_filter inside)

/-- At any moment the receiver has handed up the packets whose last fragments have come. -/
theorem star_hears {src : ι → ℕ} (apart : ∀ i j, i ≠ j → src i % 64 ≠ src j % 64)
    (memory : Slot → Context AlPdu) {es : List (ι × SenderEvent)}
    (toHub : ∀ i macDA prio size, (i, SenderEvent.recv macDA prio size) ∈ es → macDA = index)
    {xs ys : List (ι × Frag)} (split : uplink (fun _ => Sender.init) es = xs ++ ys) : ∃ r,
      run (Receiver.hear index) (Receiver.init memory) (xs.map (heardFrom src)) = some r ∧
        r.up = (completedBy xs).map Prod.snd := by
  have sent := own_uplink (fun _ => Sender.init) es
  rw [split] at sent
  have legal : ∀ i, ∃ w, Legal (own i xs) w := by
    intro i
    obtain ⟨w, all⟩ := bursts_legal (own i es)
    rw [← sent i, own_append] at all
    obtain ⟨w₀, before, -⟩ := all.prefix
    exact ⟨w₀, before⟩
  choose w legal using legal
  have toUs : ∀ x ∈ xs, x.2.alpdu.macDA = index := by
    rintro ⟨i, fh⟩ hx
    apply bursts_macDA ready_init (by simp [Sender.init]) (toOne_own toHub i) fh
    rw [← sent i, own_append]
    exact List.mem_append_left _ (List.mem_map.mpr ⟨(i, fh), by simpa using hx, rfl⟩)
  obtain ⟨r, reach, -, up⟩ := star_run apart memory legal toUs
  exact ⟨r, reach, by rw [up, completedBy_map_snd]⟩

/-- The packets of a terminal whose last fragments have been sent are those that have left
its queue. -/
theorem own_completedBy_uplink (es : List (ι × SenderEvent)) (i : ι) :
    own i (completedBy (uplink (fun _ => Sender.init) es)) =
      (Sender.init.taken (own i es)).map Packet.toAlPdu := by
  rw [own_completedBy, own_uplink, completed_bursts]

/-- All terminals send to the receiver, their sources have different remainders, nothing is
lost, and the slots of the terminals and their arrivals come in any order: at any moment
the receiver has handed up the packets whose last fragments have come, and in the end these
are of each terminal the packets it took out of its queue, each once, and those of one
priority in the order in which they were queued. -/
theorem star_round_trip (src : ι → ℕ) (apart : ∀ i j, i ≠ j → src i % 64 ≠ src j % 64)
    (memory : Slot → Context AlPdu) (es : List (ι × SenderEvent))
    (toHub : ∀ i macDA prio size, (i, SenderEvent.recv macDA prio size) ∈ es → macDA = index) :
    (∀ xs ys, uplink (fun _ => Sender.init) es = xs ++ ys → ∃ r,
        run (Receiver.hear index) (Receiver.init memory) (xs.map (heardFrom src)) = some r ∧
          r.up = (completedBy xs).map Prod.snd) ∧
      ∀ i, own i (completedBy (uplink (fun _ => Sender.init) es)) =
          (Sender.init.taken (own i es)).map Packet.toAlPdu ∧
        (Sender.init.taken (own i es)).Pairwise Before :=
  ⟨fun _ _ split => star_hears apart memory toHub split,
    fun i => ⟨own_completedBy_uplink es i, (taken_before ready_init .nil (own i es)).1⟩⟩

/-- Two terminals split a packet each, and their fragments alternate. -/
theorem star_round_trip_two : ∃ r,
    run (Receiver.hear 1) (Receiver.init fun _ => Context.zero)
        ((uplink (fun _ => Sender.init) [(0, .urgent 1 20), (1, .urgent 1 30), (0, .slot 12),
          (1, .slot 12), (0, .slot 30), (1, .slot 40)]).map (heardFrom fun i : Fin 2 => i)) =
      some r ∧ r.up = [⟨0, 1, 23⟩, ⟨0, 1, 33⟩] := by
  have apart : ∀ i j : Fin 2, i ≠ j → (i : ℕ) % 64 ≠ j % 64 := by decide
  have toHub : ∀ (i : Fin 2) macDA prio size, (i, SenderEvent.recv macDA prio size) ∈
      [(0, .urgent 1 20), (1, .urgent 1 30), (0, .slot 12), (1, .slot 12), (0, .slot 30),
        (1, .slot 40)] → macDA = 1 := by
    intro i macDA prio size mem
    simp [SenderEvent.urgent] at mem
    omega
  obtain ⟨r, reach, up⟩ := (star_round_trip (fun i : Fin 2 => i) apart (fun _ => Context.zero) _
    toHub).1 _ [] (List.append_nil _).symm
  exact ⟨r, reach, up⟩

end star

end Mftdma.Rle
