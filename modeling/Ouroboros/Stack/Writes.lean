import Ouroboros.Stack.Refinement

/-!
A send takes its time.

`Connection::send` writes three words and the payload, and it may wait at each of these
writes while the other tasks go on. So a frame comes to the socket in pieces. The other
levels write it at once, and that makes no difference: a state in which a frame has been
begun stands for the one in which it has been written.
-/

namespace Ouroboros.Mux

open Connection Relation BigEndian

variable {σ μ : Type}

/-- An endpoint that may be in the middle of a send. -/
structure Writer (σ μ : Type) where
  endpoint : Endpoint σ μ
  /-- The words that are still to be written, and the payload. -/
  pending : Option (List Bytes × Payload)

namespace Writer

inductive Step (P : Protocol σ μ) (S : SerdeCbor) (T : Transport) :
    Writer σ μ → Writer σ μ → Prop
  /-- A turn that sends. The state has changed before the first byte is written. -/
  | send {e : Endpoint σ μ} {p : Party σ μ} {data : Bytes} (timestamp : UInt32) :
      Party.turn P S e.party = .next p → p.channel.sent = e.sent ++ [data] →
      Step P S T ⟨e, none⟩ ⟨e.adopt p, some ([bytes 4 timestamp.toNat, bytes 2 e.idx.toNat,
        bytes 2 (UInt16.ofNat data.length).toNat], data)⟩
  /-- `write_all` offers again what was not taken. -/
  | word {e : Endpoint σ μ} {w : Bytes} {ws : List Bytes} {data : Bytes} {n : ℕ} : w ≠ [] →
      T.accept e.written w = some n → 0 < n →
      Step P S T ⟨e, some (w :: ws, data)⟩
        ⟨{ e with written := e.written ++ w.take n }, some (w.drop n :: ws, data)⟩
  | next {e : Endpoint σ μ} {ws : List Bytes} {data : Bytes} :
      Step P S T ⟨e, some ([] :: ws, data)⟩ ⟨e, some (ws, data)⟩
  /-- The payload goes through a single `write`. -/
  | payload {e : Endpoint σ μ} {data : Bytes} {n : ℕ} : T.accept e.written data = some n →
      Step P S T ⟨e, some ([], data)⟩ ⟨{ e with written := e.written ++ data.take n }, none⟩
  | recv {e : Endpoint σ μ} {p : Party σ μ} {payload : Payload} {connection : Connection} :
      Party.turn P S e.party = .next p →
      e.party.channel.receiver = payload :: p.channel.receiver →
      Does e.connection (.recv e.queue payload) connection →
      Step P S T ⟨e, none⟩ ⟨{ e.adopt p with connection }, none⟩
  /-- The demux task does not wait for the send. -/
  | demux {w : Writer σ μ} {a : Action} {connection : Connection} : a.Demux →
      Does w.endpoint.connection a connection →
      Step P S T w { w with endpoint := { w.endpoint with connection } }

/-- What is left of the frame. -/
def rest (w : Writer σ μ) : Bytes :=
  match w.pending with
  | none => []
  | some (ws, data) => ws.flatten ++ data

/-- The writes that are left. -/
def left (w : Writer σ μ) : ℕ :=
  match w.pending with
  | none => 0
  | some (ws, _) => ws.flatten.length + ws.length + 1

/-- The endpoint when the frame has been written. -/
def settle (w : Writer σ μ) : Endpoint σ μ :=
  { w.endpoint with written := w.endpoint.written ++ w.rest }

variable {P : Protocol σ μ} {S : SerdeCbor} {T : Transport} {w w' : Writer σ μ}
  {e : Endpoint σ μ}

theorem settle_none (e : Endpoint σ μ) : settle ⟨e, none⟩ = e := by
  simp [settle, rest]

/-- The step in which a send begins is the one in which the frame is written. -/
theorem step_settle (hT : T.Greedy) (h : Step P S T w w') :
    Endpoint.Step P S T w.settle w'.settle ∨ w'.settle = w.settle ∧ w'.left < w.left := by
  cases h with
  | @send e p data timestamp hturn hsent =>
      have hsettle : settle ⟨e.adopt p, some ([bytes 4 timestamp.toNat, bytes 2 e.idx.toNat,
          bytes 2 (UInt16.ofNat data.length).toNat], data)⟩ =
          { e.adopt p with written := e.written ++ (Call.mk timestamp e.idx data).wire } := by
        simp [settle, rest, Call.wire, Call.header, Endpoint.adopt]
      rw [settle_none, hsettle]
      exact .inl (.send timestamp hturn hsent
        (send_greedy hT ⟨timestamp, e.idx, data⟩ e.written))
  | @word e w ws data n hne haccept hpos =>
      have hpos' := List.length_pos_iff.mpr hne
      refine .inr ⟨?_, ?_⟩
      · simp only [settle, rest, List.flatten_cons, List.append_assoc]
        rw [← List.append_assoc (w.take n), List.take_append_drop]
      · simp only [left, List.flatten_cons, List.length_append, List.length_drop, List.length_cons]
        omega
  | next => exact .inr ⟨by simp [settle, rest], by simp [left]⟩
  | @payload e data n haccept =>
      obtain rfl : n = data.length := Option.some.inj (haccept.symm.trans (hT e.written data))
      exact .inr ⟨by simp [settle, rest], by simp [left]⟩
  | recv hturn hreceiver hdoes =>
      rw [settle_none, settle_none]
      exact .inl (.recv hturn hreceiver hdoes)
  | demux ha hdoes => exact .inl (.demux ha hdoes)

/-- A send that has begun goes on. -/
theorem exists_write (hT : T.Greedy) (h : w.pending ≠ none) : ∃ w', Step P S T w w' := by
  obtain ⟨e, _ | ⟨_ | ⟨v, ws⟩, data⟩⟩ := w
  · exact absurd rfl h
  · exact ⟨_, .payload (hT e.written data)⟩
  · by_cases hv : v = []
    · subst hv
      exact ⟨_, .next⟩
    · exact ⟨_, .word hv (hT e.written v) (List.length_pos_iff.mpr hv)⟩

/-- Between two sends it is an endpoint. -/
theorem exists_step (h : w.pending = none) (hstep : Endpoint.Step P S T w.endpoint e) :
    ∃ w', Step P S T w w' := by
  obtain ⟨e, pending⟩ := w
  obtain rfl : pending = none := h
  cases hstep with
  | send timestamp hturn hsent _ => exact ⟨_, .send timestamp hturn hsent⟩
  | recv hturn hreceiver hdoes => exact ⟨_, .recv hturn hreceiver hdoes⟩
  | demux ha hdoes => exact ⟨_, .demux ha hdoes⟩

end Writer

/-- Two of them, and the socket between them. -/
structure Pair (σ μ : Type) where
  client : Writer σ μ
  server : Writer σ μ

inductive Pair.Step (P : Protocol σ μ) (S : SerdeCbor) (T : Transport) :
    Pair σ μ → Pair σ μ → Prop
  | client {l : Pair σ μ} {client : Writer σ μ} : Writer.Step P S T l.client client →
      Step P S T l { l with client }
  | server {l : Pair σ μ} {server : Writer σ μ} : Writer.Step P S T l.server server →
      Step P S T l { l with server }
  | toServer {l : Pair σ μ} {chunk : Bytes} {connection : Connection} : chunk ≠ [] →
      l.server.endpoint.connection.arrived ++ chunk <+: l.client.endpoint.written →
      Does l.server.endpoint.connection (.arrive chunk) connection →
      Step P S T l
        { l with server := { l.server with endpoint := { l.server.endpoint with connection } } }
  | toClient {l : Pair σ μ} {chunk : Bytes} {connection : Connection} : chunk ≠ [] →
      l.client.endpoint.connection.arrived ++ chunk <+: l.server.endpoint.written →
      Does l.client.endpoint.connection (.arrive chunk) connection →
      Step P S T l
        { l with client := { l.client with endpoint := { l.client.endpoint with connection } } }

namespace Pair

def settle (l : Pair σ μ) : Link σ μ := ⟨l.client.settle, l.server.settle⟩

variable {P : Protocol σ μ} {S : SerdeCbor} {T : Transport}

/-- **The simulation.** -/
theorem simulation (hT : T.Greedy) :
    Transition.Simulation (Step P S T) (Link.Step P S T) (fun _ => True)
      (fun l link => link = l.settle) (fun l => l.client.left + l.server.left) where
  forward {l l' link} h hstep := by
    subst h
    cases hstep with
    | client hstep =>
        rcases Writer.step_settle hT hstep with hstep | ⟨heq, hlt⟩
        · exact .inl ⟨_, .client hstep, fun _ => rfl⟩
        · exact .inr ⟨by rw [settle, settle, heq], Nat.add_lt_add_right hlt _⟩
    | server hstep =>
        rcases Writer.step_settle hT hstep with hstep | ⟨heq, hlt⟩
        · exact .inl ⟨_, .server hstep, fun _ => rfl⟩
        · exact .inr ⟨by rw [settle, settle, heq], Nat.add_lt_add_left hlt _⟩
    | toServer hne hchunk hdoes =>
        exact .inl ⟨_, .toServer hne (hchunk.trans (List.prefix_append _ _)) hdoes, fun _ => rfl⟩
    | toClient hne hchunk hdoes =>
        exact .inl ⟨_, .toClient hne (hchunk.trans (List.prefix_append _ _)) hdoes, fun _ => rfl⟩
  progress {l link link'} h hstep := by
    subst h
    by_cases hclient : l.client.pending = none
    · by_cases hserver : l.server.pending = none
      · obtain ⟨⟨ec, pc⟩, ⟨es, ps⟩⟩ := l
        obtain rfl : pc = none := hclient
        obtain rfl : ps = none := hserver
        rw [settle, Writer.settle_none, Writer.settle_none] at hstep
        cases hstep with
        | client hstep =>
            obtain ⟨w, hw⟩ := Writer.exists_step (w := ⟨ec, none⟩) rfl hstep
            exact ⟨_, .client hw⟩
        | server hstep =>
            obtain ⟨w, hw⟩ := Writer.exists_step (w := ⟨es, none⟩) rfl hstep
            exact ⟨_, .server hw⟩
        | toServer hne hchunk hdoes => exact ⟨_, .toServer hne hchunk hdoes⟩
        | toClient hne hchunk hdoes => exact ⟨_, .toClient hne hchunk hdoes⟩
      · obtain ⟨w, hw⟩ := Writer.exists_write (P := P) (S := S) hT hserver
        exact ⟨_, .server hw⟩
    · obtain ⟨w, hw⟩ := Writer.exists_write (P := P) (S := S) hT hclient
      exact ⟨_, .client hw⟩

/-- Both sides open a channel. Each has read all that the other one has written. -/
def make (pc ps : Party σ μ) (sc ss : Connection) : Pair σ μ where
  client := ⟨.make pc sc ss.history.consumed, none⟩
  server := ⟨.make ps ss sc.history.consumed, none⟩

/-- What `Link.Implements` says, of sends that take their time. -/
structure Implements (P : Protocol σ μ) (S : SerdeCbor) (T : Transport) (l : Pair σ μ)
    (n : Network σ μ) : Prop where
  runs : ∀ l', ReflTransGen (Step P S T) l l' →
    ∃ n', ReflTransGen (Network.Step P S) n n' ∧ n'.client = l'.client.endpoint.party ∧
      n'.server = l'.server.endpoint.party ∧
      ((∀ l'', ¬ Step P S T l' l'') → ∀ n'', ¬ Network.Step P S n' n'')
  ends : (¬ ∃ run : ℕ → Network σ μ, run 0 = n ∧ ∀ i, Network.Step P S (run i) (run (i + 1))) →
    ¬ ∃ run : ℕ → Pair σ μ, run 0 = l ∧ ∀ i, Step P S T (run i) (run (i + 1))

/-- **A send may take its time.** Two parties open their channels on settled connections, over
sockets that take every byte they are offered. A send writes its frame in four writes, and
the demux tasks of both sides, the other party and the socket go on between them. What the
parties do is still what they do over an ideal transport. -/
theorem writes (hT : T.Greedy) {pc ps : Party σ μ} {sc ss : Connection} {idx : UInt16}
    (hsc : Settled sc) (hss : Settled ss) (hpc : pc.channel = .open idx)
    (hps : ps.channel = .open (idx ^^^ 0x8000))
    (hfits : ∀ n, ReflTransGen (Network.Step P S) ⟨pc, ps, [], []⟩ n → Link.Fits n) :
    Implements P S T (make pc ps sc ss) ⟨pc, ps, [], []⟩ := by
  have himplements := (Link.stands_make hsc hss hpc hps).refines hT hfits
  have hsettle : Link.make pc ps sc ss = (make pc ps sc ss).settle := by
    rw [settle, make, Writer.settle_none, Writer.settle_none, Link.make]
  have hsimulation := @simulation _ _ P S T hT
  refine ⟨fun l' hrun => ?_, fun hends => ?_⟩
  · obtain ⟨_, hrun', rfl⟩ := hsimulation.run (fun _ _ => trivial) hsettle hrun
    obtain ⟨n', hn', hclient, hserver, hstuck⟩ := himplements.runs _ hrun'
    exact ⟨n', hn', hclient, hserver, fun h => hstuck (hsimulation.stuck rfl h)⟩
  · exact hsimulation.terminates (fun _ _ => trivial) hsettle (himplements.ends hends)

/-- A handshake between two new connections. -/
theorem writes_handshake :
    ∃ client server, Handshake.builder.client = .ok client ∧
      Handshake.builder.server = .ok server ∧
      Implements (Handshake.protocol Cbor.serdeCbor) Cbor.serdeCbor .greedy
        (make client server .new .new) ⟨client, server, [], []⟩ :=
  ⟨_, _, rfl, rfl, @writes _ _ _ _ _ (fun _ _ => rfl) _ _ _ _ 0 settled_new settled_new rfl rfl
    fun _ hrun => (Handshake.sound_builder rfl rfl hrun).1⟩

end Pair

end Ouroboros.Mux
