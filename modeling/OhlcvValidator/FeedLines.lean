import OhlcvValidator.ArbiterLossy
import OhlcvValidator.FeedReceive

namespace OhlcvValidator

open Replay (DoubleBits u64Bytes byteBytes)

namespace PacketBuffer

/-- Where the members of a packet lie, and their bytes. -/
def members (p : FeedPacket Replay.WireRecord) : List (Nat × List UInt8) :=
  [(CType.offsetOf feedPacket 0, u64Bytes p.seq), (CType.offsetOf feedPacket 1, byteBytes p.line),
    (CType.offsetOf feedPacket 3, p.record.bytes)]

theorem members_spec (p : FeedPacket Replay.WireRecord) :
    (∀ f ∈ members p, f.1 + f.2.length ≤ (List.replicate kPacketSize (0 : UInt8)).length) ∧
      (members p).Pairwise Apart := by
  have hoff : CType.offsetOf feedPacket 0 = 0 ∧ CType.offsetOf feedPacket 1 = 8 ∧
    CType.offsetOf feedPacket 3 = 16 ∧ kPacketSize = 104 ∧ Replay.kStride = 88 := by decide
  have hrec := p.record.length_bytes
  have hword := Replay.length_u64Bytes p.seq
  obtain ⟨h0, h1, h3, hsize, hstride⟩ := hoff
  simp [members, h0, h1, h3, hsize, hrec, hstride, hword, byteBytes, Apart]

/-- The memory of a packet that was zeroed and then filled in. -/
def ofPacket (p : FeedPacket Replay.WireRecord) : PacketBuffer where
  bytes := putFields (List.replicate kPacketSize 0) (members p)
  length_bytes := (length_putFields (members_spec p).1).trans List.length_replicate

/-- A packet is read back from its memory. -/
theorem packet_ofPacket (p : FeedPacket Replay.WireRecord) : (ofPacket p).packet = p := by
  have hfield : ∀ f ∈ members p, slice (ofPacket p).bytes f.1 f.2.length = f.2 :=
    fun f hf => slice_putFields (members_spec p).1 (members_spec p).2 hf
  have hseq := hfield (CType.offsetOf feedPacket 0, u64Bytes p.seq) (by simp [members])
  have hline := hfield (CType.offsetOf feedPacket 1, byteBytes p.line) (by simp [members])
  have hrec := hfield (CType.offsetOf feedPacket 3, p.record.bytes) (by simp [members])
  rw [Replay.length_u64Bytes] at hseq
  rw [p.record.length_bytes] at hrec
  simp only [packet, Replay.u64At_eq hseq, Replay.byteAt_eq hline, hrec]

end PacketBuffer

namespace FeedHandler

open FeedPublisher (packet trade)

/-- The publisher, the datagrams that wait on the two lines, and the handler. `taken` is what the
handler has offered to the arbitrator. -/
structure Feed where
  seq : Nat := 0
  sending : Line := .A
  sockets : Sockets
  draining : Line := .A
  got : Bool := false
  session : FeedSession Replay.WireRecord kWindow := ({}, [])
  taken : List (Line × FeedPacket Replay.WireRecord) := []
  left : Bool := false

/-- A turn of one of the two programs. The handler's clock is read when a round has found
nothing. -/
inductive Turn
  | publish
  | handle (expired : Bool)
  deriving DecidableEq, Repr

section System

variable {D : Type} [PriceArith D] (toBits : D → DoubleBits) (draws : Nat → D)
  (kept : Line → Nat → Bool) (count : Nat)

/-- What the publisher sends. -/
def datagram (line : Line) (seq : Nat) : Datagram :=
  (PacketBuffer.ofPacket (packet toBits draws line seq)).bytes

/-- The network hands a datagram to the socket of its line. -/
def Sockets.deliver (r : Sockets) (line : Line) (d : Datagram) : Sockets :=
  ⟨Function.update r.queue line (r.queue line ++ [d]), r.pkt⟩

/-- One of the two sends of the publisher's loop; `kept` says which arrive. -/
def Feed.publish (f : Feed) : Option Feed :=
  if f.seq < count then
    let sockets :=
      if kept f.sending f.seq then
        f.sockets.deliver f.sending (datagram toBits draws f.sending f.seq)
      else f.sockets
    match f.sending with
    | .A => some { f with sockets, sending := .B }
    | .B => some { f with sockets, sending := .A, seq := f.seq + 1 }
  else none

/-- One receive of the handler's loop, on the line that is being drained. Without a packet it
turns to line B, and from there to the next round or out of the loop. -/
def Feed.handle (expired : Bool) (f : Feed) : Option Feed :=
  if f.left then none
  else
    let r := McastReceiver.recv f.sockets.pkt (f.sockets.queue f.draining)
    let f := { f with sockets := ⟨Function.update f.sockets.queue f.draining r.2.2, r.2.1⟩ }
    if r.1 then
      (FeedArbitrator.offer r.2.1.packet f.session).map fun session =>
        { f with session, got := true, taken := f.taken ++ [(f.draining, r.2.1.packet)] }
    else
      match f.draining with
      | .A => some { f with draining := .B }
      | .B =>
        if f.got || !expired then some { f with draining := .A, got := false }
        else (FeedArbitrator.flush f.session).map fun session => { f with session, left := true }

def Feed.turn (f : Feed) : Turn → Option Feed
  | .publish => f.publish toBits draws kept count
  | .handle expired => f.handle expired

/-- The two programs from the start, in the given order of turns. -/
def runFeed (pkt : PacketBuffer) (turns : List Turn) : Option Feed :=
  turns.foldlM (Feed.turn toBits draws kept count) { sockets := ⟨fun _ => [], pkt⟩ }

/-- Nothing that waits is a whole window behind the publisher. -/
def Feed.KeepsUp (f : Feed) : Prop :=
  ∀ line, ∀ d ∈ f.sockets.queue line, ∀ p ∈ received d, f.seq < p.seq.toNat + kWindow.size

/-- How many sequences the publisher is done with on a line. -/
def Feed.published (f : Feed) (line : Line) : Nat :=
  if line = .A ∧ f.sending = .B then f.seq + 1 else f.seq

/-- On each line the sequences `ts` have been received and `ws` still wait. -/
structure Carries (f : Feed) (ts ws : Line → List Nat) : Prop where
  sent : ∀ line, ts line ++ ws line = (List.range (f.published line)).filter (kept line)
  waiting : ∀ line, f.sockets.queue line = (ws line).map (datagram toBits draws line)
  taken : ∀ line, offeredOn line f.taken = (ts line).map (packet toBits draws line)
  bound : f.seq ≤ count ∧ (f.sending = .B → f.seq < count)
  session : FeedArbitrator.run kWindow (f.taken.map (fun e => .offer e.2) ++
    if f.left then [.flush] else []) = some f.session
  spread : f.taken.Pairwise fun e e' => e.2.seq.toNat < e'.2.seq.toNat + kWindow.size

end System

section Steps

variable {D : Type} [PriceArith D] {toBits : D → DoubleBits} {draws : Nat → D}
  {kept : Line → Nat → Bool} {count : Nat} {f f' : Feed} {ts ws : Line → List Nat}

theorem received_datagram (line : Line) (s : Nat) :
    received (datagram toBits draws line s) = some (packet toBits draws line s) := by
  have hlen := (PacketBuffer.ofPacket (packet toBits draws line s)).length_bytes
  have hread := PacketBuffer.packet_ofPacket (packet toBits draws line s)
  rw [datagram, received_eq_wholePacket hlen.le, wholePacket, dif_pos hlen]
  exact congrArg some hread

theorem recv_datagram (pkt : PacketBuffer) (line : Line) (s : Nat) (queue : List Datagram) :
    McastReceiver.recv pkt (datagram toBits draws line s :: queue) =
      (true, PacketBuffer.ofPacket (packet toBits draws line s), queue) := by
  have hlen := (PacketBuffer.ofPacket (packet toBits draws line s)).length_bytes
  refine (recv_cons_long pkt hlen.ge queue).trans ?_
  simp only [List.take_of_length_le hlen.le]

theorem packet_seq (line : Line) {s : Nat} (h : s < 2 ^ 64) :
    (packet toBits draws line s).seq.toNat = s :=
  UInt64.toNat_ofNat_of_lt' h

theorem Feed.published_le (f : Feed) (line : Line) : f.published line ≤ f.seq + 1 := by
  unfold Feed.published
  split <;> omega

theorem carries_start (pkt : PacketBuffer) :
    Carries toBits draws kept count { sockets := ⟨fun _ => [], pkt⟩ } (fun _ => []) fun _ => [] where
  sent := fun line => by simp [Feed.published]
  waiting := fun _ => rfl
  taken := fun _ => rfl
  bound := ⟨Nat.zero_le _, by simp⟩
  session := rfl
  spread := List.Pairwise.nil

theorem Carries.publish (h : Carries toBits draws kept count f ts ws)
    (hstep : f.publish toBits draws kept count = some f') :
    ∃ ws', Carries toBits draws kept count f' ts ws' := by
  unfold Feed.publish at hstep
  split at hstep
  next hlt =>
    have hnow : f.published f.sending = f.seq := by
      unfold Feed.published
      cases f.sending <;> simp
    obtain ⟨ws', hws⟩ : ∃ ws', ws' =
        Function.update ws f.sending (ws f.sending ++ [f.seq].filter (kept f.sending)) := ⟨_, rfl⟩
    have hsent : ∀ line, ts line ++ ws' line = (List.range
        (if line = f.sending then f.seq + 1 else f.published line)).filter (kept line) := by
      intro line
      by_cases hline : line = f.sending
      · subst hline
        rw [if_pos rfl, hws, Function.update_self, ← List.append_assoc, h.sent, hnow,
          List.range_succ, List.filter_append]
      · rw [if_neg hline, hws, Function.update_of_ne hline, h.sent]
    dsimp only at hstep
    generalize hsockets : (if kept f.sending f.seq then
      f.sockets.deliver f.sending (datagram toBits draws f.sending f.seq) else f.sockets) =
        sockets at hstep
    have hqueue : ∀ line, sockets.queue line = (ws' line).map (datagram toBits draws line) := by
      intro line
      subst hsockets hws
      by_cases hline : line = f.sending
      · subst hline
        cases hk : kept f.sending f.seq <;> simp [Sockets.deliver, hk, h.waiting]
      · cases hk : kept f.sending f.seq <;> simp [Sockets.deliver, hk, hline, h.waiting]
    refine ⟨ws', ?_⟩
    cases hs : f.sending with
    | A =>
      simp only [hs, Option.some.injEq] at hstep
      subst hstep
      refine ⟨fun line => (hsent line).trans ?_, hqueue, h.taken, ⟨hlt.le, fun _ => hlt⟩, h.session,
        h.spread⟩
      cases line <;> simp [Feed.published, hs]
    | B =>
      simp only [hs, Option.some.injEq] at hstep
      subst hstep
      refine ⟨fun line => (hsent line).trans ?_, hqueue, h.taken, ⟨hlt, by simp⟩, h.session,
        h.spread⟩
      cases line <;> simp [Feed.published, hs]
  next => cases hstep

/-- What was taken had been published. -/
theorem Carries.taken_le (h : Carries toBits draws kept count f ts ws) (hcount : count < 2 ^ 64)
    {e : Line × FeedPacket Replay.WireRecord} (he : e ∈ f.taken) : e.2.seq.toNat ≤ f.seq := by
  have hmem : e.2 ∈ offeredOn e.1 f.taken :=
    List.mem_map.mpr ⟨e, List.mem_filter.mpr ⟨he, by simp⟩, rfl⟩
  rw [h.taken] at hmem
  obtain ⟨s, hs, hpacket⟩ := List.mem_map.mp hmem
  have hrange : s ∈ (List.range (f.published e.1)).filter (kept e.1) := by
    rw [← h.sent]
    exact List.mem_append_left _ hs
  have hlt := List.mem_range.mp (List.mem_filter.mp hrange).1
  have hpub := f.published_le e.1
  rw [← hpacket, packet_seq _ (by have := h.bound; omega)]
  omega

theorem run_concat {calls : List (FeedCall Replay.WireRecord)} {c : FeedCall Replay.WireRecord}
    {st st' : FeedSession Replay.WireRecord kWindow}
    (hrun : FeedArbitrator.run kWindow calls = some st) (hcall : FeedArbitrator.call st c = some st') :
    FeedArbitrator.run kWindow (calls ++ [c]) = some st' := by
  unfold FeedArbitrator.run at hrun ⊢
  rw [List.foldlM_append, hrun]
  simpa using hcall

/-- Taking the first datagram of a line moves its sequence from the waiting to the received. -/
theorem Carries.receive (h : Carries toBits draws kept count f ts ws) (hcount : count < 2 ^ 64)
    (hkeeps : f.KeepsUp) (hleft : f.left = false) {s : Nat} {rest : List Nat}
    (hws : ws f.draining = s :: rest) {buffer : PacketBuffer}
    {session : FeedSession Replay.WireRecord kWindow}
    (hoffer : FeedArbitrator.offer (packet toBits draws f.draining s) f.session = some session) :
    Carries toBits draws kept count
      { f with
        sockets := ⟨Function.update f.sockets.queue f.draining
          (rest.map (datagram toBits draws f.draining)), buffer⟩
        session := session
        got := true
        taken := f.taken ++ [(f.draining, packet toBits draws f.draining s)] }
      (Function.update ts f.draining (ts f.draining ++ [s]))
      (Function.update ws f.draining rest) where
  sent line := by
    refine Eq.trans ?_ (h.sent line)
    by_cases hline : line = f.draining
    · subst hline
      simp [hws]
    · simp [hline]
  waiting line := by
    by_cases hline : line = f.draining
    · subst hline
      simp
    · simp [hline, h.waiting]
  taken line := by
    rw [offeredOn_append, h.taken]
    by_cases hline : line = f.draining
    · subst hline
      simp [offeredOn]
    · simp [offeredOn, hline, Ne.symm hline]
  bound := h.bound
  session := by
    have hsession := h.session
    rw [hleft, if_neg Bool.false_ne_true, List.append_nil] at hsession
    rw [List.map_append, hleft, if_neg Bool.false_ne_true, List.append_nil]
    exact run_concat hsession hoffer
  spread := by
    rw [List.pairwise_append]
    refine ⟨h.spread, List.pairwise_singleton _ _, fun e he e' he' => ?_⟩
    obtain rfl := List.mem_singleton.mp he'
    have hwaits : datagram toBits draws f.draining s ∈ f.sockets.queue f.draining := by
      rw [h.waiting, hws]
      exact List.mem_cons_self
    have hbehind := hkeeps f.draining _ hwaits _ (received_datagram f.draining s)
    exact (h.taken_le hcount he).trans_lt hbehind

/-- A line on which nothing waits: the handler turns to the other line, to the next round, or
flushes and leaves. -/
theorem Carries.idle (h : Carries toBits draws kept count f ts ws) (hleft : f.left = false)
    (hws : ws f.draining = []) {expired : Bool} (hstep : f.handle expired = some f') :
    Carries toBits draws kept count f' ts ws := by
  have hqueue : f.sockets.queue f.draining = [] := by rw [h.waiting, hws, List.map_nil]
  have hsame : Function.update f.sockets.queue f.draining [] = f.sockets.queue := by
    rw [← hqueue, Function.update_eq_self]
  rw [Feed.handle, if_neg (by simp [hleft])] at hstep
  simp only [hqueue, McastReceiver.recv, hsame, Bool.false_eq_true, if_false] at hstep
  split at hstep
  next =>
    cases hstep
    exact { h with }
  next =>
    split at hstep
    next =>
      cases hstep
      exact { h with }
    next =>
      obtain ⟨session, hflush, rfl⟩ := Option.map_eq_some_iff.mp hstep
      have hsession := h.session
      rw [hleft, if_neg Bool.false_ne_true, List.append_nil] at hsession
      exact { h with session := run_concat hsession hflush }

theorem Carries.handle (h : Carries toBits draws kept count f ts ws) (hcount : count < 2 ^ 64)
    (hkeeps : f.KeepsUp) {expired : Bool} (hstep : f.handle expired = some f') :
    ∃ ts' ws', Carries toBits draws kept count f' ts' ws' := by
  have hleft : f.left = false := by
    cases hl : f.left with
    | false => rfl
    | true => simp [Feed.handle, hl] at hstep
  cases hws : ws f.draining with
  | nil => exact ⟨ts, ws, h.idle hleft hws hstep⟩
  | cons s rest =>
    have hqueue : f.sockets.queue f.draining = datagram toBits draws f.draining s ::
        rest.map (datagram toBits draws f.draining) := by rw [h.waiting, hws, List.map_cons]
    rw [Feed.handle, if_neg (by simp [hleft])] at hstep
    simp only [hqueue, recv_datagram, PacketBuffer.packet_ofPacket, if_true] at hstep
    obtain ⟨session, hoffer, rfl⟩ := Option.map_eq_some_iff.mp hstep
    exact ⟨_, _, h.receive hcount hkeeps hleft hws hoffer⟩

/-- However the turns fall, each line's arrivals are received in order, and the arbitrator has
been offered them and nothing else. -/
theorem carries_run (hcount : count < 2 ^ 64) {pkt : PacketBuffer} {turns : List Turn}
    (hkeeps : ∀ pre post g, turns = pre ++ post → runFeed toBits draws kept count pkt pre = some g →
      g.KeepsUp) (hrun : runFeed toBits draws kept count pkt turns = some f) :
    ∃ ts ws, Carries toBits draws kept count f ts ws := by
  induction turns using List.reverseRecOn generalizing f with
  | nil =>
    obtain rfl := Option.some.inj hrun
    exact ⟨_, _, carries_start pkt⟩
  | append_singleton turns turn ih =>
    rw [runFeed, List.foldlM_append] at hrun
    obtain ⟨g, hg, hstep⟩ := Option.bind_eq_some_iff.mp hrun
    obtain ⟨ts, ws, h⟩ := ih (fun pre post g hpre => hkeeps pre (post ++ [turn]) g (by simp [hpre])) hg
    have hturn : g.turn toBits draws kept count turn = some f := by simpa using hstep
    cases turn with
    | publish => exact ⟨ts, h.publish hturn⟩
    | handle expired => exact h.handle hcount (hkeeps turns [.handle expired] g rfl hg) hturn

end Steps

section Outcome

variable {D : Type} [PriceArith D] {toBits : D → DoubleBits} {draws : Nat → D}
  {kept : Line → Nat → Bool} {count : Nat} {f : Feed} {ts ws : Line → List Nat}

/-- The sequence arrives on one of the lines. -/
def OnSome (kept : Line → Nat → Bool) (s : Nat) : Bool :=
  kept .A s || kept .B s

/-- The sequence is lost on both lines, after the first packet and before another that arrives. -/
def LostBetween (kept : Line → Nat → Bool) (count first s : Nat) : Bool :=
  decide (first ≤ s) && !OnSome kept s &&
    (List.range count).any fun t => decide (s < t) && OnSome kept t

theorem onSome_iff {s : Nat} : OnSome kept s = true ↔ ∃ line, kept line s = true := by
  rw [OnSome, Bool.or_eq_true]
  constructor
  · rintro (h | h)
    · exact ⟨.A, h⟩
    · exact ⟨.B, h⟩
  · rintro ⟨line, h⟩
    cases line with
    | A => exact Or.inl h
    | B => exact Or.inr h

/-- When the publisher is done and nothing waits, all that arrived has been received. -/
theorem Carries.complete (h : Carries toBits draws kept count f ts ws) (hdone : f.seq = count)
    (hempty : ∀ line, f.sockets.queue line = []) (line : Line) :
    offeredOn line f.taken =
      ((List.range count).filter (kept line)).map (packet toBits draws line) := by
  have hsending : f.sending ≠ .B := fun hB => by
    have := h.bound.2 hB
    omega
  have hws : ws line = [] := by
    have hqueue := h.waiting line
    rw [hempty, eq_comm, List.map_eq_nil_iff] at hqueue
    exact hqueue
  have hsent := h.sent line
  rw [hws, List.append_nil, Feed.published, if_neg fun hb => hsending hb.2, hdone] at hsent
  rw [h.taken, hsent]

section Received

variable {pkts : List (Line × FeedPacket Replay.WireRecord)}

/-- Each packet is one that was published and arrived on its line. -/
theorem mem_of_complete
    (h : ∀ line, offeredOn line pkts =
      ((List.range count).filter (kept line)).map (packet toBits draws line))
    {e : Line × FeedPacket Replay.WireRecord} :
    e ∈ pkts ↔ ∃ s < count, kept e.1 s = true ∧ e.2 = packet toBits draws e.1 s := by
  have hmem : e ∈ pkts ↔ e.2 ∈ offeredOn e.1 pkts := by
    simp only [offeredOn, List.mem_map, List.mem_filter, decide_eq_true_eq]
    constructor
    · exact fun he => ⟨e, ⟨he, rfl⟩, rfl⟩
    · rintro ⟨e', ⟨he', hline⟩, hpkt⟩
      rwa [← Prod.ext hline hpkt]
  rw [hmem, h]
  simp only [List.mem_map, List.mem_filter, List.mem_range, and_assoc]
  exact exists_congr fun s => and_congr_right fun _ => and_congr_right fun _ => eq_comm

theorem arrives_of_complete (hcount : count < 2 ^ 64)
    (h : ∀ line, offeredOn line pkts =
      ((List.range count).filter (kept line)).map (packet toBits draws line)) (s : Nat) :
    Arrives (pkts.map Prod.snd) s = true ↔ s < count ∧ OnSome kept s = true := by
  rw [arrives_iff, onSome_iff]
  constructor
  · rintro ⟨p, hp, rfl⟩
    obtain ⟨e, he, rfl⟩ := List.mem_map.mp hp
    obtain ⟨t, ht, hkept, hpkt⟩ := (mem_of_complete h).mp he
    rw [hpkt, packet_seq _ (by omega)]
    exact ⟨ht, e.1, hkept⟩
  · rintro ⟨hs, line, hkept⟩
    refine ⟨packet toBits draws line s, List.mem_map.mpr ⟨(line, _), ?_, rfl⟩,
      packet_seq _ (by omega)⟩
    exact (mem_of_complete h).mpr ⟨s, hs, hkept, rfl⟩

/-- The first packet is the first that arrived on its line. -/
theorem head_of_complete (hcount : count < 2 ^ 64)
    (h : ∀ line, offeredOn line pkts =
      ((List.range count).filter (kept line)).map (packet toBits draws line))
    {e : Line × FeedPacket Replay.WireRecord} {rest : List (Line × FeedPacket Replay.WireRecord)}
    (hpkts : pkts = e :: rest) :
    kept e.1 e.2.seq.toNat = true ∧ ∀ s < e.2.seq.toNat, kept e.1 s = false := by
  have hline := h e.1
  rw [hpkts, offeredOn, List.filter_cons_of_pos (by simp), List.map_cons] at hline
  obtain ⟨t, ts, hts, ht, _⟩ := List.map_eq_cons_iff.mp hline.symm
  have hmem : t ∈ (List.range count).filter (kept e.1) := by
    rw [hts]
    exact List.mem_cons_self
  obtain ⟨hlt, hkept⟩ := List.mem_filter.mp hmem
  have hlt := List.mem_range.mp hlt
  have hseq : e.2.seq.toNat = t := by rw [← ht, packet_seq _ (by omega)]
  rw [hseq]
  refine ⟨hkept, fun s hs => ?_⟩
  by_contra hk
  have hsmem : s ∈ (List.range count).filter (kept e.1) :=
    List.mem_filter.mpr ⟨List.mem_range.mpr (by omega), by simpa using hk⟩
  have hsorted : ((List.range count).filter (kept e.1)).Pairwise (· < ·) :=
    List.Pairwise.filter _ List.pairwise_lt_range
  rw [hts] at hsmem hsorted
  rcases List.mem_cons.mp hsmem with rfl | hsmem
  · omega
  · have := (List.pairwise_cons.mp hsorted).1 s hsmem
    omega

theorem length_of_complete
    (h : ∀ line, offeredOn line pkts =
      ((List.range count).filter (kept line)).map (packet toBits draws line)) :
    pkts.length = (List.range count).countP (kept .A) + (List.range count).countP (kept .B) := by
  have hlen : ∀ line, (pkts.filter fun e => e.1 = line).length =
      (List.range count).countP (kept line) := by
    intro line
    have hline := congrArg List.length (h line)
    rw [offeredOn, List.length_map, List.length_map] at hline
    rw [hline, List.countP_eq_length_filter]
  have hsplit := List.length_eq_length_filter_add (fun e : Line × _ => decide (e.1 = .A)) (l := pkts)
  have hother : (fun e : Line × FeedPacket Replay.WireRecord => !decide (e.1 = .A)) =
      fun e => decide (e.1 = .B) := by
    funext e
    cases e.1 <;> rfl
  rw [hother, hlen, hlen] at hsplit
  exact hsplit

end Received

section Lists

variable {pkts : List (FeedPacket Replay.WireRecord)} {first last : Nat}
  (harr : ∀ s, Arrives pkts s = true ↔ s < count ∧ OnSome kept s = true)
  (hlast : Arrives pkts last = true) (hmax : ∀ p ∈ pkts, p.seq.toNat ≤ last)

include harr hmax

theorem delivered_eq :
    ((List.range count).filter fun s => decide (first ≤ s) && OnSome kept s) =
      (List.range' first (last + 1 - first)).filter (Arrives pkts) := by
  refine filter_range'_eq (List.Pairwise.filter _ List.pairwise_lt_range) fun s => ?_
  rw [List.mem_filter, List.mem_range, Bool.and_eq_true, decide_eq_true_eq]
  constructor
  · rintro ⟨hs, hle, hon⟩
    have harrives := (harr s).mpr ⟨hs, hon⟩
    obtain ⟨p, hp, rfl⟩ := arrives_iff.mp harrives
    have := hmax p hp
    exact ⟨hle, by omega, harrives⟩
  · rintro ⟨hle, _, harrives⟩
    obtain ⟨hs, hon⟩ := (harr s).mp harrives
    exact ⟨hs, hle, hon⟩

include hlast

theorem lost_eq :
    (List.range count).filter (LostBetween kept count first) =
      (List.range' first (last + 1 - first)).filter fun s => !Arrives pkts s := by
  obtain ⟨hlast_lt, hlast_some⟩ := (harr last).mp hlast
  refine filter_range'_eq (List.Pairwise.filter _ List.pairwise_lt_range) fun s => ?_
  simp only [List.mem_filter, List.mem_range, LostBetween, Bool.and_eq_true, decide_eq_true_eq,
    Bool.not_eq_true', List.any_eq_true]
  constructor
  · rintro ⟨hs, ⟨hle, hoff⟩, t, ht, hst, hon⟩
    obtain ⟨p, hp, rfl⟩ := arrives_iff.mp ((harr t).mpr ⟨ht, hon⟩)
    have := hmax p hp
    refine ⟨hle, by omega, ?_⟩
    rw [← Bool.not_eq_true, harr]
    simp [hoff]
  · rintro ⟨hle, hlt, hnot⟩
    have hne : s ≠ last := by
      rintro rfl
      rw [hlast] at hnot
      cases hnot
    have hs : s < count := by omega
    rw [← Bool.not_eq_true, harr] at hnot
    exact ⟨hs, ⟨hle, by simpa [hs] using hnot⟩, last, hlast_lt, by omega, hlast_some⟩

end Lists

/-- Two lossy lines, from the publisher to the sink: if the handler never falls a whole window
behind and leaves when the publisher is done and nothing waits, then, however the two programs take
turns, the sink gets from the first packet on exactly the published records that arrived on some
line, once, in order and byte for byte. The gaps are exactly the sequences lost on both lines
between the first packet and the last that arrives, and every other packet was a redundant copy or
came before the first. -/
theorem twoLines_exact (hcount : count < 2 ^ 64)
    (hburst : ∀ s, s + (2 ^ 20 - 2 * kWindow.size) < count →
      ∃ t, s ≤ t ∧ t ≤ s + (2 ^ 20 - 2 * kWindow.size) ∧ OnSome kept t = true)
    {pkt : PacketBuffer} {turns : List Turn}
    (hkeeps : ∀ pre post g, turns = pre ++ post → runFeed toBits draws kept count pkt pre = some g →
      g.KeepsUp)
    (hrun : runFeed toBits draws kept count pkt turns = some f) (hleft : f.left = true)
    (hdone : f.seq = count) (hempty : ∀ line, f.sockets.queue line = [])
    (hsome : ∃ s < count, OnSome kept s = true) :
    ∃ first line, kept line first = true ∧ (∀ s < first, kept line s = false) ∧
      f.session.2 = ((List.range count).filter fun s => decide (first ≤ s) && OnSome kept s).map
        (fun s => (UInt64.ofNat s, (trade toBits draws s).wrap)) ∧
      f.session.1.stats.gaps.toNat =
        ((List.range count).filter (LostBetween kept count first)).length ∧
      f.session.1.stats.rejected = 0 ∧
      f.session.1.stats.delivered + f.session.1.stats.duplicates 0 +
          f.session.1.stats.duplicates 1 =
        UInt64.ofNat ((List.range count).countP (kept .A) + (List.range count).countP (kept .B)) := by
  obtain ⟨ts, ws, h⟩ := carries_run hcount hkeeps hrun
  have hall := h.complete hdone hempty
  have harr := arrives_of_complete hcount hall
  have hrec : ∀ p ∈ f.taken.map Prod.snd, p.seq.toNat < count ∧
      p.record = (trade toBits draws p.seq.toNat).wrap := by
    intro p hp
    obtain ⟨e, he, rfl⟩ := List.mem_map.mp hp
    obtain ⟨t, ht, _, hpkt⟩ := (mem_of_complete hall).mp he
    rw [hpkt, packet_seq _ (by omega)]
    exact ⟨ht, rfl⟩
  cases htaken : f.taken with
  | nil =>
    obtain ⟨s, hs, hsome⟩ := hsome
    have := (harr s).mpr ⟨hs, hsome⟩
    rw [htaken] at this
    cases this
  | cons e rest =>
    obtain ⟨hfirst, hleast⟩ := head_of_complete hcount hall htaken
    have hne : f.taken.map Prod.snd ≠ [] := by simp [htaken]
    obtain ⟨last, hlast, hmax⟩ := exists_last hne
    have hburst' : NoBurst (2 ^ 20 - 2 * kWindow.size) (2 ^ 20) e.2.seq.toNat
        (f.taken.map Prod.snd) := by
      intro p hp _ s _ hlt
      have hp := (hrec p hp).1
      obtain ⟨t, hst, hts, ht⟩ := hburst s (by omega)
      exact ⟨t, hst, hts, (harr t).mpr ⟨by omega, ht⟩⟩
    have hspread : (f.taken.map Prod.snd).Pairwise fun p q =>
        p.seq.toNat < q.seq.toNat + kWindow.size := List.pairwise_map.mpr h.spread
    have hhead : (f.taken.map Prod.snd).head?.map (fun p => p.seq.toNat) = some e.2.seq.toNat := by
      rw [htaken]
      rfl
    obtain ⟨a, sink, harun, hkeys, hcopies, hgaps, hrej, hdup⟩ :=
      FeedArbitrator.lossy_run (w := kWindow) (by decide)
        (fun p hp => by have := (hrec p hp).1; omega) hhead (freshWithin_of_pairwise hspread)
        hburst' hlast hmax
    have hsession := h.session
    rw [hleft, if_pos rfl] at hsession
    rw [List.map_map] at harun
    have hfinal : (a, sink) = f.session := Option.some.inj (harun.symm.trans hsession)
    rw [← hfinal]
    refine ⟨e.2.seq.toNat, e.1, hfirst, hleast, ?_, ?_, hrej, ?_⟩
    · rw [delivered_eq harr hmax, ← hkeys, List.map_map]
      refine (List.map_id _).symm.trans (List.map_congr_left fun x hx => ?_)
      obtain ⟨p, hfind, hp⟩ := Option.map_eq_some_iff.mp (hcopies x.1 x.2 hx)
      have hseq : p.seq.toNat = x.1.toNat := by simpa using List.find?_some hfind
      have hwrap := (hrec p (List.mem_of_find?_eq_some hfind)).2
      refine Prod.ext (UInt64.ofNat_toNat).symm ?_
      rw [id, ← hp, hwrap, hseq]
      rfl
    · rw [hgaps, lost_eq harr hlast hmax]
    · rw [hdup, List.length_map, length_of_complete hall]

/-- A session shorter than the window cannot leave the handler behind. -/
theorem keepsUp_of_short (hshort : count < kWindow.size) {pkt : PacketBuffer} {turns : List Turn}
    (hrun : runFeed toBits draws kept count pkt turns = some f) : f.KeepsUp := by
  have hseq : f.seq ≤ count := by
    refine foldlM_invariant (I := fun f : Feed => f.seq ≤ count) (fun g turn g' hg hstep => ?_)
      (Nat.zero_le _) hrun
    cases turn with
    | publish =>
      simp only [Feed.turn, Feed.publish] at hstep
      split at hstep
      next hlt => split at hstep <;> cases hstep <;> first | exact hg | exact hlt
      next => cases hstep
    | handle expired =>
      simp only [Feed.turn, Feed.handle] at hstep
      split at hstep
      next => cases hstep
      next =>
        split at hstep
        next =>
          obtain ⟨session, _, rfl⟩ := Option.map_eq_some_iff.mp hstep
          exact hg
        next =>
          split at hstep
          next => cases hstep; exact hg
          next =>
            split at hstep
            next => cases hstep; exact hg
            next =>
              obtain ⟨session, _, rfl⟩ := Option.map_eq_some_iff.mp hstep
              exact hg
  intro line d _ p _
  omega

/-- Of three packets, line A loses the middle one and line B all but the first. -/
def lostMiddle : Line → Nat → Bool
  | .A, s => s != 1
  | .B, s => s == 0

def lostMiddleTurns : List Turn :=
  [.publish, .handle false, .publish, .publish, .handle false, .handle false, .publish, .publish,
    .publish, .handle false, .handle false, .handle false, .handle false, .handle false,
    .handle true]

theorem twoLines_exact_lostMiddle :
    ∃ f : Feed, runFeed (fun _ : ℚ => 0) (fun _ => 0) lostMiddle 3 ⟨List.replicate 104 0, by decide⟩
        lostMiddleTurns = some f ∧
      f.session.2.map Prod.fst = [0, 2] ∧ f.session.1.stats.gaps = 1 := by
  have hend : (runFeed (fun _ : ℚ => 0) (fun _ => 0) lostMiddle 3 ⟨List.replicate 104 0, by decide⟩
      lostMiddleTurns).map (fun f => (f.left, f.seq, f.sockets.queue .A, f.sockets.queue .B)) =
        some (true, 3, [], []) := by
    decide +kernel
  obtain ⟨f, hrun, hf⟩ := Option.map_eq_some_iff.mp hend
  simp only [Prod.mk.injEq] at hf
  obtain ⟨hleft, hdone, hA, hB⟩ := hf
  have hkeeps : ∀ pre post g, lostMiddleTurns = pre ++ post →
      runFeed (fun _ : ℚ => 0) (fun _ => 0) lostMiddle 3 ⟨List.replicate 104 0, by decide⟩ pre =
        some g → g.KeepsUp :=
    fun _ _ _ _ hg => keepsUp_of_short (by decide) hg
  have hempty : ∀ line, f.sockets.queue line = [] := by
    intro line
    cases line
    · exact hA
    · exact hB
  obtain ⟨first, line, _, hleast, hsink, hgaps, _⟩ := twoLines_exact (by decide)
    (fun s hs => absurd hs (by rw [show kWindow.size = 4096 from rfl]; omega)) hkeeps hrun hleft
    hdone hempty ⟨0, by decide, rfl⟩
  obtain rfl : first = 0 := by
    by_contra hne
    have := hleast 0 (Nat.pos_of_ne_zero hne)
    cases line <;> cases this
  have hlost : ((List.range 3).filter (LostBetween lostMiddle 3 0)).length = 1 := by decide
  have hlist : (List.range 3).filter (fun s => decide (0 ≤ s) && OnSome lostMiddle s) = [0, 2] := by
    decide
  rw [hlost] at hgaps
  rw [hlist] at hsink
  refine ⟨f, hrun, ?_, UInt64.toNat_inj.mp hgaps⟩
  rw [hsink]
  rfl

end Outcome

end FeedHandler

end OhlcvValidator
