import Ouroboros.Mux.Attached
import Ouroboros.Protocols.Conversation

/-!
A protocol value on the channel of a connection.

The party of `Protocol.execute` and the connection under it are one system here:
the queue of the party's channel is the queue that the demultiplexer fills, and
what the party sends is written to the socket by `Connection::send`. The turns of
the party and the steps of the demux task interleave in any order.
-/

namespace Ouroboros.Mux

open Connection

variable {σ μ : Type}

/-- The party is spread over the protocol value, its channel and the connection. -/
structure Endpoint (σ μ : Type) where
  connection : Connection
  /-- All bytes that have been written to the socket. -/
  written : Bytes
  proto : σ
  idx : UInt16
  /-- The queue of the channel. -/
  queue : ℕ
  bytes : Bytes
  sent : List Bytes
  log : List (Event σ μ)

namespace Endpoint

/-- The party that the loop in `execute` sees. -/
def party (e : Endpoint σ μ) : Party σ μ where
  proto := e.proto
  channel := ⟨e.idx, e.connection.payloads e.queue, e.bytes, e.sent⟩
  log := e.log

/-- What a turn changes besides the queue and the socket. -/
def adopt (p : Party σ μ) (e : Endpoint σ μ) : Endpoint σ μ :=
  { e with proto := p.proto, bytes := p.channel.bytes, sent := p.channel.sent, log := p.log }

/-- A protocol value is made on a connection: `connection.channel(idx)`. -/
def make (p : Party σ μ) (s : Connection) (written : Bytes) : Endpoint σ μ where
  connection := s.opened p.channel.idx
  written := written
  proto := p.proto
  idx := p.channel.idx
  queue := s.queues.length
  bytes := p.channel.bytes
  sent := p.channel.sent
  log := p.log

inductive Step (P : Protocol σ μ) (S : SerdeCbor) (T : Transport) :
    Endpoint σ μ → Endpoint σ μ → Prop
  /-- A turn that sends: `Connection::send` writes the frame. -/
  | send {e : Endpoint σ μ} {p : Party σ μ} {data written : Bytes} (timestamp : UInt32) :
      Party.turn P S e.party = .next p → p.channel.sent = e.sent ++ [data] →
      Mux.send T timestamp e.idx data e.written = (.ok (), written) →
      Step P S T e { e.adopt p with written }
  /-- A turn that receives: `Connection::recv` takes a payload from the queue. -/
  | recv {e : Endpoint σ μ} {p : Party σ μ} {payload : Payload} {connection : Connection} :
      Party.turn P S e.party = .next p →
      e.party.channel.receiver = payload :: p.channel.receiver →
      Does e.connection (.recv e.queue payload) connection →
      Step P S T e { e.adopt p with connection }
  | demux {e : Endpoint σ μ} {a : Action} {connection : Connection} : a.Demux →
      Does e.connection a connection → Step P S T e { e with connection }

/-- The channel is open, and its task is the only one. -/
def Live (task : ℕ) (e : Endpoint σ μ) : Prop :=
  Attached e.idx e.queue task e.connection

variable {P : Protocol σ μ} {S : SerdeCbor} {T : Transport} {e e' : Endpoint σ μ}
  {p : Party σ μ} {task : ℕ}

theorem live_make {s : Connection} (h : Settled s) (p : Party σ μ) (written : Bytes) :
    (make p s written).Live s.tasks.length := h.opened p.channel.idx

/-- The party of a new endpoint has an empty queue. -/
theorem party_make {s : Connection} (h : Settled s) (hreceiver : p.channel.receiver = [])
    (written : Bytes) : (make p s written).party = p := by
  have hpayloads : (s.opened p.channel.idx).payloads s.queues.length = [] := by
    simp [Connection.opened, runDemux, register, h.demux, Connection.payloads]
  simp only [party, make, hpayloads, ← hreceiver]

/-- A step of a live endpoint. The party takes a turn, or its task does something. -/
inductive Moved (P : Protocol σ μ) (S : SerdeCbor) (task : ℕ) (e : Endpoint σ μ) :
    Endpoint σ μ → Prop
  | send {p : Party σ μ} {data written : Bytes} (timestamp : UInt32) :
      Party.turn P S e.party = .next p → p.channel.sent = e.sent ++ [data] →
      ({ e.adopt p with written } : Endpoint σ μ).party = p →
      written = e.written ++ (Call.mk timestamp e.idx data).wire →
      Moved P S task e { e.adopt p with written }
  | recv {p : Party σ μ} {payload : Payload} {connection : Connection} :
      Party.turn P S e.party = .next p → p.channel.sent = e.sent →
      ({ e.adopt p with connection } : Endpoint σ μ).party = p →
      Does e.connection (.recv e.queue payload) connection →
      Moved P S task e { e.adopt p with connection }
  | demux {a : Action} {connection : Connection} : a.Demux → Does e.connection a connection →
      Demuxed task e.connection connection → Moved P S task e { e with connection }

theorem Step.moved (hT : T.Greedy) (h : e.Live task) (hstep : Step P S T e e') :
    Moved P S task e e' := by
  cases hstep with
  | @send p data written timestamp hturn hsent hwritten =>
      rw [show Mux.send T timestamp e.idx data e.written = _ from
        send_greedy hT ⟨timestamp, e.idx, data⟩ e.written] at hwritten
      cases hwritten
      refine .send timestamp hturn hsent ?_ rfl
      cases Party.turned_of_next hturn with
      | send _ _ _ _ => rfl
      | recv _ _ _ _ _ _ =>
          have hlen := congrArg List.length hsent
          simp [Party.afterRecv, Party.delivered, party] at hlen
  | @recv p payload connection hturn hreceiver hdoes =>
      have hqueue := payloads_of_recv hdoes hreceiver
      cases Party.turned_of_next hturn with
      | send _ _ _ _ =>
          have hlen := congrArg List.length hreceiver
          simp [Party.afterSend, party] at hlen
      | recv _ _ _ _ _ _ =>
          refine .recv hturn rfl ?_ hdoes
          simp only [party, adopt, hqueue]
          rfl
  | demux ha hdoes => exact .demux ha hdoes (h.demuxed ha hdoes)

theorem Moved.live (h : e.Live task) (hmoved : Moved P S task e e') : e'.Live task := by
  cases hmoved with
  | send _ _ _ _ _ => exact h
  | recv _ _ _ hdoes => exact Attached.recv h hdoes
  | demux ha hdoes _ => exact Attached.demux h ha hdoes

/-- A party that can take a turn takes it. -/
theorem exists_step (hT : T.Greedy) (h : e.Live task) (hturn : Party.turn P S e.party = .next p) :
    ∃ e', Step P S T e e' := by
  cases Party.turned_of_next hturn with
  | @send m s data _ _ _ _ =>
      exact ⟨_, .send 0 hturn rfl (send_greedy hT ⟨0, e.idx, data⟩ e.written)⟩
  | recv _ _ hq _ _ _ =>
      obtain ⟨connection, hdoes, -⟩ := Attached.exists_recv h hq
      exact ⟨_, .recv hturn hq hdoes⟩

end Endpoint

end Ouroboros.Mux
