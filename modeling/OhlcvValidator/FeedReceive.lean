import OhlcvValidator.FeedPipeline

namespace OhlcvValidator

open Replay (DoubleBits cChar cChars cU64 u64At byteAt kStride)

/-- The packet's structure as declared. -/
def feedPacket : List CType :=
  [cU64, cChar, cChars 7, .struct Replay.wireRecord]

def kPacketSize : Nat := (CType.struct feedPacket).size

example : kPacketSize = 104 := by decide

/-- The memory of a packet. -/
structure PacketBuffer where
  bytes : List UInt8
  length_bytes : bytes.length = kPacketSize
  deriving DecidableEq, Repr

namespace PacketBuffer

/-- The packet that lies in the memory. -/
def packet (b : PacketBuffer) : FeedPacket Replay.WireRecord where
  seq := u64At b.bytes (CType.offsetOf feedPacket 0)
  line := byteAt b.bytes (CType.offsetOf feedPacket 1)
  record := ⟨slice b.bytes (CType.offsetOf feedPacket 3) kStride, length_slice (by
    rw [b.length_bytes]
    decide)⟩

/-- Copy into the memory from its start on what fits of the bytes. -/
def copy (b : PacketBuffer) (bs : List UInt8) : PacketBuffer where
  bytes := overwrite b.bytes 0 (bs.take kPacketSize)
  length_bytes := by
    rw [length_overwrite, b.length_bytes]
    rw [b.length_bytes, List.length_take]
    omega

end PacketBuffer

abbrev Datagram := List UInt8

/-- Receive the first datagram of the queue into the packet, and say whether a full packet
arrived. An empty queue makes `::recv` return -1; a datagram is gone from the queue either way. -/
def McastReceiver.recv (out : PacketBuffer) : List Datagram → Bool × PacketBuffer × List Datagram
  | [] => (false, out, [])
  | d :: queue => (min d.length kPacketSize == kPacketSize, out.copy d, queue)

namespace FeedHandler

open McastReceiver (recv)

/-- The datagrams that wait on the two lines, and the packet that they are received into. -/
structure Sockets where
  queue : Line → List Datagram
  pkt : PacketBuffer

variable {σ : Type}

/-- The loop `while (recv(pkt)) offer(pkt)` on one line. -/
def drainLine (offer : FeedPacket Replay.WireRecord → σ → Option σ) (pkt : PacketBuffer) (s : σ) :
    List Datagram → Option (List Datagram × PacketBuffer × σ)
  | [] => some ([], pkt, s)
  | d :: queue =>
    let r := recv pkt (d :: queue)
    if r.1 then (offer r.2.1.packet s).bind fun s => drainLine offer r.2.1 s queue
    else some (r.2.2, r.2.1, s)

def drainOne (offer : Line → FeedPacket Replay.WireRecord → σ → Option σ) (line : Line)
    (st : Sockets × σ) : Option (Sockets × σ) :=
  (drainLine (offer line) st.1.pkt st.2 (st.1.queue line)).map fun r =>
    (⟨Function.update st.1.queue line r.1, r.2.1⟩, r.2.2)

/-- One turn of the main loop: line A, then line B. -/
def drain (offer : Line → FeedPacket Replay.WireRecord → σ → Option σ) (st : Sockets × σ) :
    Option (Sockets × σ) :=
  (drainOne offer .A st).bind (drainOne offer .B)

def Sockets.waiting (r : Sockets) : Nat :=
  (r.queue .A).length + (r.queue .B).length

/-- Turns until nothing waits; each takes a datagram, so one turn for each is enough. -/
def drainAll (offer : Line → FeedPacket Replay.WireRecord → σ → Option σ) (st : Sockets × σ) :
    Option (Sockets × σ) :=
  whileLoop (fun st => decide (0 < st.1.waiting)) (drain offer) st.1.waiting st

/-- The loop turns as long as a full packet arrives. -/
theorem drainLine_eq (offer : FeedPacket Replay.WireRecord → σ → Option σ) (pkt : PacketBuffer)
    (s : σ) (queue : List Datagram) :
    drainLine offer pkt s queue =
      if (recv pkt queue).1 then
        (offer (recv pkt queue).2.1.packet s).bind fun s =>
          drainLine offer (recv pkt queue).2.1 s (recv pkt queue).2.2
      else some ((recv pkt queue).2.2, (recv pkt queue).2.1, s) := by
  cases queue <;> rfl

/-- The packet that a datagram of at least its size is taken for. -/
def received (d : Datagram) : Option (FeedPacket Replay.WireRecord) :=
  if h : kPacketSize ≤ d.length then
    some (PacketBuffer.packet ⟨d.take kPacketSize, List.length_take_of_le h⟩)
  else none

/-- The packet that a datagram of exactly its size is. -/
def wholePacket (d : Datagram) : Option (FeedPacket Replay.WireRecord) :=
  if h : d.length = kPacketSize then some (PacketBuffer.packet ⟨d, h⟩) else none

theorem recv_cons_long (pkt : PacketBuffer) {d : Datagram} (h : kPacketSize ≤ d.length)
    (queue : List Datagram) :
    recv pkt (d :: queue) = (true, ⟨d.take kPacketSize, List.length_take_of_le h⟩, queue) := by
  have hcopy : pkt.copy d = ⟨d.take kPacketSize, List.length_take_of_le h⟩ := by
    have hlen : pkt.bytes.length = (d.take kPacketSize).length :=
      pkt.length_bytes.trans (List.length_take_of_le h).symm
    have hall : overwrite (pkt.bytes ++ []) 0 (d.take kPacketSize) = d.take kPacketSize ++ [] :=
      overwrite_head hlen
    simp only [List.append_nil] at hall
    simp only [PacketBuffer.copy, hall]
  rw [recv, hcopy, Nat.min_eq_right h]
  simp

theorem recv_cons_short (pkt : PacketBuffer) {d : Datagram} (h : ¬kPacketSize ≤ d.length)
    (queue : List Datagram) : recv pkt (d :: queue) = (false, pkt.copy d, queue) := by
  have hmin : min d.length kPacketSize ≠ kPacketSize := by omega
  rw [recv, beq_eq_false_iff_ne.mpr hmin]

theorem received_long {d : Datagram} (h : kPacketSize ≤ d.length) :
    received d = some (PacketBuffer.packet ⟨d.take kPacketSize, List.length_take_of_le h⟩) :=
  dif_pos h

/-- One line's loop offers some packets and stops, at the end of its queue or behind a short
datagram; what it has not offered is left in the queue. -/
theorem drainLine_spec (pkt : PacketBuffer) (queue : List Datagram) :
    ∃ taken rest pkt', (∀ (σ : Type) (offer : FeedPacket Replay.WireRecord → σ → Option σ) (s : σ),
        drainLine offer pkt s queue =
          (taken.foldlM (fun s p => offer p s) s).map fun s => (rest, pkt', s)) ∧
      queue.filterMap received = taken ++ rest.filterMap received ∧
      rest.length ≤ queue.length - 1 := by
  induction queue generalizing pkt with
  | nil => exact ⟨[], [], pkt, fun _ _ _ => rfl, rfl, le_rfl⟩
  | cons d queue ih =>
    by_cases h : kPacketSize ≤ d.length
    · obtain ⟨taken, rest, pkt', hloop, htaken, hlen⟩ :=
        ih ⟨d.take kPacketSize, List.length_take_of_le h⟩
      refine ⟨PacketBuffer.packet ⟨d.take kPacketSize, List.length_take_of_le h⟩ :: taken, rest,
        pkt', ?_, ?_, ?_⟩
      · intro σ offer s
        rw [drainLine_eq, recv_cons_long pkt h, if_pos rfl, List.foldlM_cons]
        cases offer (PacketBuffer.packet ⟨d.take kPacketSize, List.length_take_of_le h⟩) s with
        | none => rfl
        | some t => exact hloop σ offer t
      · rw [List.filterMap_cons_some (received_long h), htaken, List.cons_append]
      · rw [List.length_cons]
        omega
    · refine ⟨[], queue, pkt.copy d, ?_, ?_, ?_⟩
      · intro σ offer s
        rw [drainLine_eq, recv_cons_short pkt h]
        rfl
      · rw [List.filterMap_cons_none (dif_neg h), List.nil_append]
      · rw [List.length_cons]
        omega

/-- What was offered from one of the lines. -/
def offeredOn (line : Line) (offered : List (Line × FeedPacket Replay.WireRecord)) :
    List (FeedPacket Replay.WireRecord) :=
  (offered.filter fun e => e.1 = line).map Prod.snd

theorem offeredOn_append (line : Line) (xs ys : List (Line × FeedPacket Replay.WireRecord)) :
    offeredOn line (xs ++ ys) = offeredOn line xs ++ offeredOn line ys := by
  simp [offeredOn]

theorem offeredOn_map (line other : Line) (pkts : List (FeedPacket Replay.WireRecord)) :
    offeredOn line (pkts.map fun p => (other, p)) = if other = line then pkts else [] := by
  unfold offeredOn
  rw [List.filter_map]
  split
  next h => simp [h, Function.comp_def]
  next h => simp [h, Function.comp_def]

/-- The step takes datagrams from the queues and offers their packets, in queue order on each
line, whatever the packets are offered to. -/
structure Offers (step : ∀ {σ : Type}, (Line → FeedPacket Replay.WireRecord → σ → Option σ) →
      Sockets × σ → Option (Sockets × σ)) (r : Sockets)
    (offered : List (Line × FeedPacket Replay.WireRecord)) (r' : Sockets) : Prop where
  step_eq : ∀ {σ : Type} (offer : Line → FeedPacket Replay.WireRecord → σ → Option σ) (s : σ),
    step offer (r, s) = (offered.foldlM (fun s e => offer e.1 e.2 s) s).map fun s => (r', s)
  offered_eq : ∀ line, (r.queue line).filterMap received =
    offeredOn line offered ++ (r'.queue line).filterMap received

theorem drainOne_offers (line : Line) (r : Sockets) :
    ∃ offered r', Offers (fun offer => drainOne offer line) r offered r' ∧
      (r'.queue line).length ≤ (r.queue line).length - 1 ∧
      ∀ other, other ≠ line → r'.queue other = r.queue other := by
  obtain ⟨taken, rest, pkt', hloop, htaken, hlen⟩ := drainLine_spec r.pkt (r.queue line)
  refine ⟨taken.map fun p => (line, p), ⟨Function.update r.queue line rest, pkt'⟩, ⟨?_, ?_⟩, ?_, ?_⟩
  · intro σ offer s
    rw [drainOne, hloop σ (offer line) s, List.foldlM_map, Option.map_map]
    rfl
  · intro other
    rw [offeredOn_map]
    dsimp only
    by_cases h : line = other
    · subst h
      rw [if_pos rfl, Function.update_self, htaken]
    · rw [if_neg h, Function.update_of_ne (Ne.symm h), List.nil_append]
  · dsimp only
    rwa [Function.update_self]
  · intro other h
    exact Function.update_of_ne h ..

/-- Two steps in a row. -/
theorem Offers.bind {first second : ∀ {σ : Type},
      (Line → FeedPacket Replay.WireRecord → σ → Option σ) →
      Sockets × σ → Option (Sockets × σ)} {r r₁ r₂ : Sockets}
    {xs ys : List (Line × FeedPacket Replay.WireRecord)} (h₁ : Offers first r xs r₁)
    (h₂ : Offers second r₁ ys r₂) :
    Offers (fun offer st => (first offer st).bind (second offer)) r (xs ++ ys) r₂ where
  step_eq := by
    intro σ offer s
    rw [h₁.step_eq, List.foldlM_append]
    cases xs.foldlM (fun s e => offer e.1 e.2 s) s with
    | none => rfl
    | some t => exact h₂.step_eq offer t
  offered_eq := by
    intro line
    rw [h₁.offered_eq, h₂.offered_eq, offeredOn_append, List.append_assoc]

/-- A turn of the main loop takes at least one datagram, if there is one. -/
theorem drain_offers (r : Sockets) :
    ∃ offered r', Offers drain r offered r' ∧ (0 < r.waiting → r'.waiting < r.waiting) := by
  obtain ⟨xs, r₁, h₁, hlenA, hothers₁⟩ := drainOne_offers .A r
  obtain ⟨ys, r₂, h₂, hlenB, hothers₂⟩ := drainOne_offers .B r₁
  refine ⟨xs ++ ys, r₂, h₁.bind h₂, ?_⟩
  have hB := hothers₁ .B (by decide)
  have hA := hothers₂ .A (by decide)
  unfold Sockets.waiting
  rw [hB] at hlenB
  rw [hA]
  omega

theorem queue_of_waiting_zero {r : Sockets} (h : r.waiting = 0) (line : Line) :
    r.queue line = [] := by
  unfold Sockets.waiting at h
  rw [← List.length_eq_zero_iff]
  cases line <;> omega

/-- The turns go on until both queues are empty. -/
theorem turns_offer (fuel : Nat) (r : Sockets) (hfuel : r.waiting ≤ fuel) :
    ∃ offered r', Offers (fun offer =>
        whileLoop (fun st => decide (0 < st.1.waiting)) (drain offer) fuel) r offered r' ∧
      ∀ line, r'.queue line = [] := by
  induction fuel generalizing r with
  | zero =>
    have hzero : r.waiting = 0 := by omega
    refine ⟨[], r, ⟨fun offer s => ?_, fun line => rfl⟩, queue_of_waiting_zero hzero⟩
    exact whileLoop_exit (by simp [hzero])
  | succ fuel ih =>
    by_cases hzero : r.waiting = 0
    · refine ⟨[], r, ⟨fun offer s => ?_, fun line => rfl⟩, queue_of_waiting_zero hzero⟩
      exact whileLoop_exit (by simp [hzero])
    · obtain ⟨xs, r₁, hturn, hless⟩ := drain_offers r
      have hpos : 0 < r.waiting := Nat.pos_of_ne_zero hzero
      obtain ⟨ys, r₂, hrest, hempty⟩ := ih r₁ (by have := hless hpos; omega)
      have hboth := hturn.bind hrest
      refine ⟨xs ++ ys, r₂, ⟨fun offer s => ?_, hboth.offered_eq⟩, hempty⟩
      rw [← hboth.step_eq, whileLoop, if_pos (by simpa using hpos)]

theorem drainAll_offers (r : Sockets) :
    ∃ offered r', Offers drainAll r offered r' ∧ ∀ line, r'.queue line = [] := by
  obtain ⟨offered, r', hoffers, hempty⟩ := turns_offer r.waiting r le_rfl
  exact ⟨offered, r', ⟨hoffers.step_eq, hoffers.offered_eq⟩, hempty⟩

section Listen

variable {F : Type} [PriceArith F] (ofBits : DoubleBits → F)

/-- The handler on what waits on its sockets: everything is drained into the arbitrator, which is
then flushed. -/
def listen (r : Sockets) : Option (FeedSession Replay.WireRecord kWindow × Handler F) :=
  (drainAll (fun _ pkt st => FeedArbitrator.offer pkt st) (r, (({} : FeedArbitrator _ kWindow), [])))
    |>.bind fun st => (FeedArbitrator.flush st.2).map fun st =>
      (st, st.2.foldl (fun h e => h.sink ofBits e.2) {})

/-- Write down what is offered, instead of offering it. -/
def noteOffer (line : Line) (pkt : FeedPacket Replay.WireRecord)
    (offered : List (Line × FeedPacket Replay.WireRecord)) :
    Option (List (Line × FeedPacket Replay.WireRecord)) :=
  some (offered ++ [(line, pkt)])

theorem foldlM_noteOffer (xs offered : List (Line × FeedPacket Replay.WireRecord)) :
    xs.foldlM (fun s e => noteOffer e.1 e.2 s) offered = some (offered ++ xs) := by
  induction xs generalizing offered with
  | nil => simp
  | cons x xs ih =>
    rw [List.foldlM_cons]
    exact (ih (offered ++ [x])).trans (by simp)

/-- The handler is run on the packets that were offered. -/
theorem Offers.listen_eq {r r' : Sockets}
    {offered : List (Line × FeedPacket Replay.WireRecord)} (h : Offers drainAll r offered r') :
    listen ofBits r = run ofBits (offered.map Prod.snd) := by
  unfold listen run FeedArbitrator.run
  rw [h.step_eq, List.foldlM_append, List.foldlM_map, List.foldlM_map]
  cases hrun : offered.foldlM (fun st e => FeedArbitrator.offer e.2 st)
      (({} : FeedArbitrator Replay.WireRecord kWindow), []) with
  | none => simp [FeedArbitrator.call, hrun]
  | some t => simp [FeedArbitrator.call, hrun]

end Listen

theorem received_eq_wholePacket {d : Datagram} (h : d.length ≤ kPacketSize) :
    received d = wholePacket d := by
  unfold received wholePacket
  by_cases hfull : d.length = kPacketSize
  · rw [dif_pos hfull.ge, dif_pos hfull]
    simp only [List.take_of_length_le h]
  · rw [dif_neg (by omega), dif_neg hfull]

theorem length_wholePackets_le (queue : List Datagram) :
    (queue.filterMap wholePacket).length ≤ (queue.filterMap received).length := by
  rw [List.length_filterMap_eq_countP, List.length_filterMap_eq_countP]
  refine List.countP_mono_left fun d _ hwhole => ?_
  unfold wholePacket at hwhole
  unfold received
  split at hwhole
  next hfull => simp [hfull]
  next => cases hwhole

/-- The packets taken from a queue are the whole packets in it just if none of its datagrams is
oversized. -/
theorem received_eq_wholePackets_iff (queue : List Datagram) :
    queue.filterMap received = queue.filterMap wholePacket ↔
      ∀ d ∈ queue, d.length ≤ kPacketSize := by
  constructor
  · intro heq
    induction queue with
    | nil => simp
    | cons d queue ih =>
      by_cases h : d.length ≤ kPacketSize
      · have htail : queue.filterMap received = queue.filterMap wholePacket := by
          rw [List.filterMap_cons, List.filterMap_cons, received_eq_wholePacket h] at heq
          cases hd : wholePacket d with
          | none => simpa [hd] using heq
          | some p => simpa [hd] using heq
        exact List.forall_mem_cons.mpr ⟨h, ih htail⟩
      · -- the truncated packet is one more than the whole ones
        have hlen := congrArg List.length heq
        have hle := length_wholePackets_le queue
        rw [List.filterMap_cons_some (received_long (by omega)),
          List.filterMap_cons_none (dif_neg (by omega)), List.length_cons] at hlen
        omega
  · intro hshort
    exact List.filterMap_congr fun d hd => received_eq_wholePacket (hshort d hd)

/-- Draining empties both queues and hands the arbitrator what it offers; that is, on each line,
the datagrams of exactly a packet's size in queue order just if no datagram is larger. -/
theorem listen_exact_iff {F : Type} [PriceArith F] (ofBits : DoubleBits → F) (r : Sockets) :
    ∃ r' offered, drainAll noteOffer (r, []) = some (r', offered) ∧
      (∀ line, r'.queue line = []) ∧ listen ofBits r = run ofBits (offered.map Prod.snd) ∧
      ((∀ line, offeredOn line offered = (r.queue line).filterMap wholePacket) ↔
        ∀ line, ∀ d ∈ r.queue line, d.length ≤ kPacketSize) := by
  obtain ⟨offered, r', hoffers, hempty⟩ := drainAll_offers r
  refine ⟨r', offered, ?_, hempty, hoffers.listen_eq ofBits, ?_⟩
  · rw [hoffers.step_eq, foldlM_noteOffer]
    rfl
  · refine forall_congr' fun line => ?_
    have hline := hoffers.offered_eq line
    rw [hempty line, List.filterMap_nil, List.append_nil] at hline
    rw [← hline, received_eq_wholePackets_iff]

/-- One datagram a byte too long, and nothing else, is offered as a packet. -/
theorem oversized_offered :
    let r : Sockets :=
      ⟨fun line => if line = .A then [List.replicate 105 0] else [],
        ⟨List.replicate 104 0, by decide⟩⟩
    ∃ r' offered, drainAll noteOffer (r, []) = some (r', offered) ∧ offered.length = 1 ∧
      ∀ line, (r.queue line).filterMap wholePacket = [] := by
  refine ⟨_, _, rfl, by decide +kernel, ?_⟩
  intro line
  cases line <;> decide +kernel

end FeedHandler

end OhlcvValidator
