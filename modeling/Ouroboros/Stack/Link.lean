import Ouroboros.Library.Simulation
import Ouroboros.Protocols.Network
import Ouroboros.Stack.Endpoint

/-!
Two endpoints and the socket between them.

In `Network` the bytes that one party has sent reach the queue of the other one in
chunks, and there is nothing in between. Here the socket delivers the bytes of the
frames that `Connection::send` writes, cut where it likes, and the demultiplexer of
the other side takes the frames apart. `simulation` says that this makes no difference:
a dispatch is the delivery of a chunk, and all that comes before it is not seen by the
parties. It neither adds a deadlock nor goes on for ever.

What it takes is that every payload fits a frame and is not empty.
-/

namespace Ouroboros.Mux

open Connection Relation

variable {σ μ : Type}

structure Link (σ μ : Type) where
  client : Endpoint σ μ
  server : Endpoint σ μ

/-- The socket is reliable and keeps the order: what has arrived at one end is an initial
part of what has been written at the other. -/
inductive Link.Step (P : Protocol σ μ) (S : SerdeCbor) (T : Transport) :
    Link σ μ → Link σ μ → Prop
  | client {l : Link σ μ} {client : Endpoint σ μ} : Endpoint.Step P S T l.client client →
      Step P S T l { l with client }
  | server {l : Link σ μ} {server : Endpoint σ μ} : Endpoint.Step P S T l.server server →
      Step P S T l { l with server }
  | toServer {l : Link σ μ} {chunk : Bytes} {connection : Connection} : chunk ≠ [] →
      l.server.connection.arrived ++ chunk <+: l.client.written →
      Does l.server.connection (.arrive chunk) connection →
      Step P S T l { l with server := { l.server with connection } }
  | toClient {l : Link σ μ} {chunk : Bytes} {connection : Connection} : chunk ≠ [] →
      l.client.connection.arrived ++ chunk <+: l.server.written →
      Does l.client.connection (.arrive chunk) connection →
      Step P S T l { l with client := { l.client with connection } }

/-! ### One direction -/

namespace Endpoint

variable {P : Protocol σ μ} {S : SerdeCbor} {T : Transport} {sender receiver e e' : Endpoint σ μ}
  {base : Bytes} {done rest : List Call} {task : ℕ}

/-- The payloads of the calls are those that the sender has sent, and they are for the
channel of the receiver. -/
structure Conveys (base : Bytes) (done rest : List Call) (sender receiver : Endpoint σ μ) :
    Prop extends Carries base done rest sender.written receiver.connection where
  sent : (done ++ rest).map Call.payload = sender.sent
  channel : ∀ c ∈ done ++ rest, c.idx ^^^ 0x8000 = receiver.idx
  pair : sender.idx ^^^ 0x8000 = receiver.idx

namespace Conveys

/-- The sender takes a turn, or its task does something. -/
theorem moved_sender (h : Conveys base done rest e receiver) (hmoved : Moved P S task e e')
    (hfits : ∀ w ∈ e'.sent, w.length ≤ 65535) : ∃ rest', Conveys base done rest' e' receiver := by
  cases hmoved with
  | @send p data written timestamp hturn hsent hparty hwritten =>
      have hdata : data.length ≤ 65535 := hfits data (by simp [adopt, hsent])
      have hcarries := h.toCarries.send (c := ⟨timestamp, e.idx, data⟩) hdata
      rw [← hwritten] at hcarries
      refine ⟨rest ++ [⟨timestamp, e.idx, data⟩], hcarries, ?_, ?_, h.pair⟩
      · rw [← List.append_assoc, List.map_append, h.sent]
        exact hsent.symm
      · intro c hc
        rw [← List.append_assoc] at hc
        rcases List.mem_append.mp hc with hc | hc
        · exact h.channel c hc
        · rw [List.mem_singleton.mp hc]
          exact h.pair
  | recv _ hsent _ _ => exact ⟨rest, h.toCarries, h.sent.trans hsent.symm, h.channel, h.pair⟩
  | demux _ _ _ => exact ⟨rest, h.toCarries, h.sent, h.channel, h.pair⟩

/-- The receiver takes a turn, or its task reads on, or its task dispatches the next
payload. -/
theorem moved_receiver (h : Conveys base done rest sender e) (hlive : e.Live task)
    (hmoved : Moved P S task e e') :
    (Party.turn P S e.party = .next e'.party ∧ Conveys base done rest sender e') ∨
    (e'.party = e.party ∧ e'.written = e.written ∧ Conveys base done rest sender e' ∧
      e'.connection.lag sender.written < e.connection.lag sender.written) ∨
    ∃ c rest', rest = c :: rest' ∧ e'.party = e.party.arrive [c.payload] ∧
      e'.written = e.written ∧ Conveys base (done ++ [c]) rest' sender e' := by
  cases hmoved with
  | send _ hturn _ hparty _ =>
      refine .inl ⟨by rw [hparty, hturn], h.toCarries, h.sent, h.channel, h.pair⟩
  | recv hturn _ hparty hdoes =>
      refine .inl ⟨by rw [hparty, hturn], ?_, h.sent, h.channel, h.pair⟩
      generalize e.queue = n at hdoes
      cases hdoes with
      | recv _ _ _ => exact ⟨h.stream, h.consumed, h.arrived, h.fits⟩
  | @demux a connection _ _ hdemuxed =>
      rcases h.toCarries.demuxed hlive hdemuxed with
        ⟨hcarries, hpayloads, hlag⟩ | ⟨c, rest', rfl, hcarries, hpayloads, -⟩
      · refine .inr (.inl ⟨?_, rfl, ⟨hcarries, h.sent, h.channel, h.pair⟩, hlag⟩)
        simp only [party, hpayloads]
      · have hc : c.idx ^^^ 0x8000 = e.idx := h.channel c (by simp)
        rw [Call.payloadFor, if_pos hc] at hpayloads
        refine .inr (.inr ⟨c, rest', rfl, ?_, rfl, hcarries, ?_, ?_, h.pair⟩)
        · simp only [party, hpayloads, Party.arrive]
        · simpa using h.sent
        · simpa using h.channel

/-- Bytes arrive at the receiver. -/
theorem arrive (h : Conveys base done rest sender e) {chunk : Bytes} {connection : Connection}
    (hne : chunk ≠ []) (hchunk : e.connection.arrived ++ chunk <+: sender.written)
    (hdoes : Does e.connection (.arrive chunk) connection) :
    ({ e with connection } : Endpoint σ μ).party = e.party ∧
      Conveys base done rest sender { e with connection } ∧
      connection.lag sender.written < e.connection.lag sender.written := by
  have hcarries := h.toCarries.arrive hchunk hdoes
  have hlag := lag_arrive hne hchunk hdoes
  cases hdoes with
  | arrive _ _ => exact ⟨rfl, ⟨hcarries, h.sent, h.channel, h.pair⟩, hlag⟩

theorem sent_fits (h : Conveys base done rest sender receiver) :
    ∀ w ∈ sender.sent, w.length ≤ 65535 := by
  rw [← h.sent]
  intro w hw
  obtain ⟨c, hc, rfl⟩ := List.mem_map.mp hw
  exact h.fits c hc

/-- What the parties see of the direction. -/
theorem delivered (h : Conveys base done rest sender receiver) :
    sender.sent.flatten = done.flatMap Call.payload ++ rest.flatMap Call.payload := by
  rw [← h.sent, List.map_append, List.flatten_append, ← List.flatMap_def, ← List.flatMap_def]

end Conveys

end Endpoint

/-! ### Both directions -/

namespace Link

variable {P : Protocol σ μ} {S : SerdeCbor} {T : Transport} {l l' : Link σ μ} {n n' : Network σ μ}
  {toServer toClient : Bytes} {client server : ℕ}

/-- Every payload that has been sent fits a frame and is not empty. -/
def Fits (n : Network σ μ) : Prop :=
  ∀ w ∈ n.client.channel.sent ++ n.server.channel.sent, w ≠ [] ∧ w.length ≤ 65535

/-- The link stands for the network. Before the two channels were opened `toServer` had
been written by the client and read by the server, and `toClient` the other way. -/
structure Stands (toServer toClient : Bytes) (client server : ℕ) (l : Link σ μ)
    (n : Network σ μ) : Prop where
  clientLive : l.client.Live client
  serverLive : l.server.Live server
  client : n.client = l.client.party
  server : n.server = l.server.party
  toServer : ∃ done rest, Endpoint.Conveys toServer done rest l.client l.server ∧
    n.toServer = done.flatMap Call.payload
  toClient : ∃ done rest, Endpoint.Conveys toClient done rest l.server l.client ∧
    n.toClient = done.flatMap Call.payload
  fits : Fits n

/-- What the steps take down that the network does not see. -/
def lag (l : Link σ μ) : ℕ :=
  l.server.connection.lag l.client.written + l.client.connection.lag l.server.written

/-! The two sides are treated alike. -/

def swap (l : Link σ μ) : Link σ μ := ⟨l.server, l.client⟩

def swapped (n : Network σ μ) : Network σ μ :=
  ⟨n.server, n.client, n.toClient, n.toServer⟩

theorem lag_swap (l : Link σ μ) : l.swap.lag = l.lag := Nat.add_comm _ _

theorem swapped_step (h : Network.Step P S (swapped n) n') : Network.Step P S n (swapped n') := by
  cases h with
  | client h => exact .server h
  | server h => exact .client h
  | toServer hchunk hsent => exact .toClient hchunk hsent
  | toClient hchunk hsent => exact .toServer hchunk hsent

theorem swap_step (h : Step P S T l.swap l') : Step P S T l l'.swap := by
  cases h with
  | client h => exact .server h
  | server h => exact .client h
  | toServer hchunk hsent hdoes => exact .toClient hchunk hsent hdoes
  | toClient hchunk hsent hdoes => exact .toServer hchunk hsent hdoes

theorem Fits.swap (h : Fits n) : Fits (swapped n) := by
  intro w hw
  refine h w (List.mem_append.mpr ?_)
  exact (List.mem_append.mp hw).symm

theorem Stands.swap (h : Stands toServer toClient client server l n) :
    Stands toClient toServer server client l.swap (swapped n) :=
  ⟨h.serverLive, h.clientLive, h.server, h.client, h.toClient, h.toServer, h.fits.swap⟩

/-- What a step of the link is for the network. -/
def Matched (P : Protocol σ μ) (S : SerdeCbor) (toServer toClient : Bytes) (client server : ℕ)
    (l : Link σ μ) (n : Network σ μ) (l' : Link σ μ) : Prop :=
  (∃ n', Network.Step P S n n' ∧ (Fits n' → Stands toServer toClient client server l' n')) ∨
    Stands toServer toClient client server l' n ∧ l'.lag < l.lag

theorem Matched.swap (h : Matched P S toClient toServer server client l.swap (swapped n) l') :
    Matched P S toServer toClient client server l n l'.swap := by
  rcases h with ⟨n', hstep, hstands⟩ | ⟨hstands, hlag⟩
  · exact .inl ⟨swapped n', swapped_step hstep, fun hfits => (hstands hfits.swap).swap⟩
  · refine .inr ⟨hstands.swap, ?_⟩
    rwa [lag_swap, ← lag_swap l]

/-- The client takes a turn, or its task reads on, or its task dispatches a payload. -/
theorem Stands.client_step (hT : T.Greedy) (h : Stands toServer toClient client server l n)
    {e : Endpoint σ μ} (hstep : Endpoint.Step P S T l.client e) :
    Matched P S toServer toClient client server l n { l with client := e } := by
  obtain ⟨doneS, restS, hconveysS, hdoneS⟩ := h.toServer
  obtain ⟨doneC, restC, hconveysC, hdoneC⟩ := h.toClient
  have hmoved := hstep.moved hT h.clientLive
  have hlive := hmoved.live h.clientLive
  rcases hconveysC.moved_receiver h.clientLive hmoved with
    ⟨hturn, hconveysC'⟩ | ⟨hparty, hwritten, hconveysC', hlag⟩ |
      ⟨c, rest', rfl, hparty, hwritten, hconveysC'⟩
  · refine .inl ⟨{ n with client := e.party }, .client (h.client ▸ hturn), fun hfits => ?_⟩
    obtain ⟨restS', hconveysS'⟩ := hconveysS.moved_sender hmoved fun w hw =>
      (hfits w (List.mem_append_left _ hw)).2
    exact ⟨hlive, h.serverLive, rfl, h.server, ⟨doneS, restS', hconveysS', hdoneS⟩,
      ⟨doneC, restC, hconveysC', hdoneC⟩, hfits⟩
  · have hsent : e.sent = l.client.sent := congrArg (fun p => p.channel.sent) hparty
    obtain ⟨restS', hconveysS'⟩ := hconveysS.moved_sender hmoved (hsent ▸ hconveysS.sent_fits)
    refine .inr ⟨⟨hlive, h.serverLive, h.client.trans hparty.symm, h.server,
      ⟨doneS, restS', hconveysS', hdoneS⟩, ⟨doneC, restC, hconveysC', hdoneC⟩, h.fits⟩, ?_⟩
    simp only [lag, hwritten]
    omega
  · have hsent : e.sent = l.client.sent := congrArg (fun p => p.channel.sent) hparty
    obtain ⟨restS', hconveysS'⟩ := hconveysS.moved_sender hmoved (hsent ▸ hconveysS.sent_fits)
    have hprefix : n.toClient ++ c.payload <+: n.server.channel.sent.flatten := by
      have hdelivered := hconveysC'.delivered
      rw [h.server]
      refine ⟨rest'.flatMap Call.payload, ?_⟩
      rw [hdoneC]
      refine Eq.trans ?_ hdelivered.symm
      simp
    refine .inl ⟨{ n with
      client := n.client.arrive [c.payload], toClient := n.toClient ++ c.payload },
      .toClient ?_ hprefix, fun hfits => ?_⟩
    · have hmem : c.payload ∈ n.server.channel.sent := by
        have hmem : c.payload ∈ (doneC ++ c :: rest').map Call.payload :=
          List.mem_map_of_mem (by simp)
        rw [hconveysC.sent] at hmem
        rw [h.server]
        exact hmem
      exact (h.fits _ (List.mem_append_right _ hmem)).1
    · refine ⟨hlive, h.serverLive, by rw [hparty, ← h.client], h.server,
        ⟨doneS, restS', hconveysS', hdoneS⟩, ⟨doneC ++ [c], rest', hconveysC', ?_⟩, hfits⟩
      simp [hdoneC]

/-- Bytes arrive at the client. -/
theorem Stands.toClient_step (h : Stands toServer toClient client server l n) {chunk : Bytes}
    {connection : Connection} (hne : chunk ≠ [])
    (hchunk : l.client.connection.arrived ++ chunk <+: l.server.written)
    (hdoes : Does l.client.connection (.arrive chunk) connection) :
    Matched P S toServer toClient client server l n
      { l with client := { l.client with connection } } := by
  obtain ⟨doneS, restS, hconveysS, hdoneS⟩ := h.toServer
  obtain ⟨doneC, restC, hconveysC, hdoneC⟩ := h.toClient
  obtain ⟨hparty, hconveysC', hlag⟩ := hconveysC.arrive hne hchunk hdoes
  refine .inr ⟨⟨Attached.arrive h.clientLive hdoes, h.serverLive, h.client.trans hparty.symm,
    h.server, ⟨doneS, restS, ?_, hdoneS⟩, ⟨doneC, restC, hconveysC', hdoneC⟩, h.fits⟩, ?_⟩
  · exact ⟨hconveysS.toCarries, hconveysS.sent, hconveysS.channel, hconveysS.pair⟩
  · simp only [lag]
    omega

/-- A frame that has not been dispatched is on its way. -/
theorem Stands.toClient_progress (h : Stands toServer toClient client server l n)
    (hne : n.toClient ≠ n.server.channel.sent.flatten) : ∃ l', Step P S T l l' := by
  obtain ⟨done, rest, hconveys, hdone⟩ := h.toClient
  cases rest with
  | nil =>
      refine absurd ?_ hne
      rw [h.server, hdone]
      exact (hconveys.delivered.trans (List.append_nil _)).symm
  | cons c rest =>
      rcases hconveys.toCarries.progress h.clientLive with
        ⟨chunk, hchunk, harrived⟩ | ⟨a, connection, ha, hdoes⟩
      · have hdoes : Does l.client.connection (.arrive chunk) _ :=
          .arrive chunk (Attached.sound h.clientLive)
        exact ⟨_, .toClient hchunk harrived hdoes⟩
      · exact ⟨_, .client (.demux ha hdoes)⟩

/-- When all has been delivered to the client its connection is drained. -/
theorem Stands.client_drained (h : Stands toServer toClient client server l n)
    (hall : n.toClient = n.server.channel.sent.flatten) :
    l.client.connection.Drained l.server.written := by
  obtain ⟨done, rest, hconveys, hdone⟩ := h.toClient
  have hdelivered := hconveys.delivered
  rw [show l.server.sent = n.server.channel.sent by rw [h.server]; rfl, ← hall, hdone] at hdelivered
  replace hdelivered := List.append_right_eq_self.mp hdelivered.symm
  cases rest with
  | nil => exact hconveys.toCarries.drained
  | cons c rest =>
      have hmem : c.payload ∈ (done ++ c :: rest).map Call.payload := List.mem_map_of_mem (by simp)
      rw [hconveys.sent] at hmem
      have hfits := h.fits c.payload (List.mem_append_right _ (by rw [h.server]; exact hmem))
      rw [List.flatMap_cons] at hdelivered
      exact absurd (List.append_eq_nil_iff.mp hdelivered).1 hfits.1

theorem ne_of_chunk {delivered chunk sent : Bytes} (hchunk : chunk ≠ [])
    (h : delivered ++ chunk <+: sent) : delivered ≠ sent := by
  rintro rfl
  have hlen := h.length_le
  rw [List.length_append] at hlen
  exact hchunk (List.eq_nil_of_length_eq_zero (by omega))

/-- **The simulation.** -/
theorem simulation (hT : T.Greedy) (toServer toClient : Bytes) (client server : ℕ) :
    Transition.Simulation (Step P S T) (Network.Step P S) Fits
      (Stands toServer toClient client server) lag where
  forward {l l' n} h hstep := by
    cases hstep with
    | client hstep => exact h.client_step hT hstep
    | server hstep => exact (h.swap.client_step hT hstep).swap
    | toServer hne hchunk hdoes => exact (h.swap.toClient_step hne hchunk hdoes).swap
    | toClient hne hchunk hdoes => exact h.toClient_step hne hchunk hdoes
  progress {l n n'} h hstep := by
    cases hstep with
    | client hturn =>
        obtain ⟨e, he⟩ := Endpoint.exists_step hT h.clientLive (h.client ▸ hturn)
        exact ⟨_, .client he⟩
    | server hturn =>
        obtain ⟨e, he⟩ := Endpoint.exists_step hT h.serverLive (h.server ▸ hturn)
        exact ⟨_, .server he⟩
    | toServer hne hsent =>
        obtain ⟨l', hl'⟩ := h.swap.toClient_progress (P := P) (S := S) (T := T)
          (ne_of_chunk hne hsent)
        exact ⟨_, swap_step hl'⟩
    | toClient hne hsent => exact h.toClient_progress (ne_of_chunk hne hsent)

end Link

end Ouroboros.Mux
