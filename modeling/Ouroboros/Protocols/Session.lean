import Ouroboros.Mux.RoundTrip
import Ouroboros.Protocols.Conversation
import Ouroboros.Protocols.Blockfetch
import Ouroboros.Protocols.Handshake

/-!
A protocol value and the futures of its calls, await by await.

`Party.execute` takes a turn in one step. Here a turn is what lies between two
awaits, and a future may be dropped at each of them: where `recv` waits with the
carry in a local variable, and in the four writes of `Connection::send` or before
them, at the lock. The state of the protocol has been changed by then.
-/

namespace Ouroboros

open Relation BigEndian

/-- Where the future of a call is. -/
inductive Position (μ : Type)
  /-- No call is in progress. -/
  | outside
  /-- At the head of the loop in `execute`. -/
  | loop
  /-- At `recv`, with the carry. -/
  | receiving (bytes : Bytes)
  /-- `send` has returned a message. -/
  | made (message : μ)
  /-- At the lock in `Connection::send`. -/
  | locking (data : Bytes)
  /-- In the writes: the words that are left of the header, then the payload. -/
  | writing (words : List Bytes) (data : Bytes)
  | panicked

/-- The public functions of a protocol. -/
structure Api (σ : Type) where
  /-- A function that calls `execute`: what it does to the value before and after. -/
  calls : σ → (σ → σ) → (σ → σ) → Prop
  /-- What a function does that does not call `execute`. -/
  asides : σ → σ → Prop

structure Session (σ μ : Type) where
  party : Party σ μ
  position : Position μ
  /-- What is left to do after `execute`. -/
  finish : σ → σ
  /-- All bytes that have been taken from the queue. -/
  taken : Bytes
  /-- The bytes on the wire: those written before the last message was made, -/
  before : Bytes
  /-- and since. -/
  since : Bytes

variable {σ μ : Type}

namespace Session

/-- A new protocol value on a connection that has been used before. -/
def start (p : Party σ μ) (before : Bytes) : Session σ μ := ⟨p, .outside, id, [], before, []⟩

/-- The bytes that have been taken and are kept for the next payload. -/
def carry (s : Session σ μ) : Bytes :=
  match s.position with
  | .receiving bytes => bytes
  | _ => s.party.channel.bytes

/-- All bytes that the demultiplexer has queued. -/
def arrived (s : Session σ μ) : Bytes := s.taken ++ s.party.channel.receiver.flatten

inductive Action
  /-- The demultiplexer queues a payload. -/
  | arrive (payload : Bytes)
  | enter
  | aside
  | leave
  /-- The carry is taken out of the channel, and `recv` is awaited. -/
  | await
  | receive
  /-- `receive_bytes` panics. -/
  | reject
  | send
  /-- `send` returns an error, which is unwrapped. -/
  | refuse
  | serialise
  /-- `to_bytes` panics. -/
  | garble
  | lock (timestamp : UInt32)
  /-- Some bytes of a word are written. -/
  | word (chunk : Bytes)
  /-- The one write of the payload takes some bytes. -/
  | payload (n : ℕ)
  /-- A write fails, and the error is unwrapped. -/
  | writeFails
  /-- The future is dropped in `recv`, or `recv` returns an error. -/
  | interrupt
  /-- The future is dropped in `Connection::send`. -/
  | abandon
  /-- A panic is caught. -/
  | unwind

inductive Does (P : Protocol σ μ) (S : SerdeCbor) (api : Api σ) :
    Session σ μ → Action → Session σ μ → Prop
  | arrive {s : Session σ μ} (payload : Bytes) :
      Does P S api s (.arrive payload) { s with party := s.party.arrive [payload] }
  | enter {s : Session σ μ} {setup finish : σ → σ} : s.position = .outside →
      api.calls s.party.proto setup finish →
      Does P S api s .enter
        { s with party := { s.party with proto := setup s.party.proto }, position := .loop, finish }
  | aside {s : Session σ μ} {proto : σ} : s.position = .outside → api.asides s.party.proto proto →
      Does P S api s .aside { s with party := { s.party with proto } }
  | leave {s : Session σ μ} : s.position = .loop → P.agency s.party.proto = .none →
      Does P S api s .leave
        { s with
          party := { s.party with proto := s.finish s.party.proto }
          position := .outside }
  | await {s : Session σ μ} : s.position = .loop → P.agency s.party.proto ≠ .none →
      P.agency s.party.proto ≠ P.role s.party.proto →
      Does P S api s .await
        { s with party := s.party.takeCarry, position := .receiving s.party.channel.bytes }
  | receive {s : Session σ μ} {bytes q : Bytes} {qs : List Bytes} {p : Party σ μ} :
      s.position = .receiving bytes → s.party.channel.receiver = q :: qs →
      Party.absorb P S bytes q (s.party.dequeue qs) = (.ok (), p) →
      Does P S api s .receive { s with party := p, position := .loop, taken := s.taken ++ q }
  | reject {s : Session σ μ} {bytes q : Bytes} {qs : List Bytes} {p : Party σ μ} {e : Error} :
      s.position = .receiving bytes → s.party.channel.receiver = q :: qs →
      Party.absorb P S bytes q (s.party.dequeue qs) = (.panic e, p) →
      Does P S api s .reject { s with party := p, position := .panicked, taken := s.taken ++ q }
  | send {s : Session σ μ} {message : μ} {proto : σ} : s.position = .loop →
      P.agency s.party.proto ≠ .none → P.agency s.party.proto = P.role s.party.proto →
      P.send s.party.proto = (.ok message, proto) →
      Does P S api s .send
        { s with
          party := { s.party with proto, log := s.party.log ++ [.tx message] }
          position := .made message
          before := s.before ++ s.since
          since := [] }
  | refuse {s : Session σ μ} {r : Outcome μ} {proto : σ} : s.position = .loop →
      P.agency s.party.proto ≠ .none → P.agency s.party.proto = P.role s.party.proto →
      P.send s.party.proto = (r, proto) → (∀ message, r ≠ .ok message) →
      Does P S api s .refuse { s with party := { s.party with proto }, position := .panicked }
  | serialise {s : Session σ μ} {message : μ} {data : Bytes} : s.position = .made message →
      P.toBytes S message = .ok data →
      Does P S api s .serialise { s with position := .locking data }
  | garble {s : Session σ μ} {message : μ} : s.position = .made message →
      (∀ data, P.toBytes S message ≠ .ok data) →
      Does P S api s .garble { s with position := .panicked }
  | lock {s : Session σ μ} {data : Bytes} (timestamp : UInt32) : s.position = .locking data →
      Does P S api s (.lock timestamp)
        { s with position := .writing [bytes 4 timestamp.toNat,
            bytes 2 s.party.channel.idx.toNat, bytes 2 (UInt16.ofNat data.length).toNat] data }
  | word {s : Session σ μ} {chunk rest data : Bytes} {words : List Bytes} :
      s.position = .writing ((chunk ++ rest) :: words) data → chunk ≠ [] →
      Does P S api s (.word chunk)
        { s with
          position := .writing (if rest = [] then words else rest :: words) data
          since := s.since ++ chunk }
  | payload {s : Session σ μ} {data : Bytes} {n : ℕ} : s.position = .writing [] data →
      n ≤ data.length →
      Does P S api s (.payload n)
        { s with
          party := { s.party with
            channel := { s.party.channel with sent := s.party.channel.sent ++ [data] } }
          position := .loop
          since := s.since ++ data.take n }
  | writeFails {s : Session σ μ} {words : List Bytes} {data : Bytes} :
      s.position = .writing words data →
      Does P S api s .writeFails { s with position := .panicked }
  | interrupt {s : Session σ μ} {bytes : Bytes} : s.position = .receiving bytes →
      Does P S api s .interrupt { s with position := .outside }
  | abandonLock {s : Session σ μ} {data : Bytes} : s.position = .locking data →
      Does P S api s .abandon { s with position := .outside }
  | abandon {s : Session σ μ} {words : List Bytes} {data : Bytes} :
      s.position = .writing words data →
      Does P S api s .abandon { s with position := .outside }
  | unwind {s : Session σ μ} : s.position = .panicked →
      Does P S api s .unwind { s with position := .outside }

/-- The runs of a session whose actions are all as `ok` says. -/
abbrev Run (P : Protocol σ μ) (S : SerdeCbor) (api : Api σ) (ok : Session σ μ → Action → Prop) :
    Session σ μ → Session σ μ → Prop :=
  ReflTransGen fun s s' => ∃ a, ok s a ∧ Does P S api s a s'

/-! ### Calls that are not interrupted

These are the ones of `Party.execute`, over a connection that takes what it is
given. -/

variable {P : Protocol σ μ} {S : SerdeCbor} {api : Api σ} {ok : Session σ μ → Action → Prop}
  {s : Session σ μ}

/-- The call of `Connection::send` for some data. -/
def frame (s : Session σ μ) (timestamp : UInt32) (data : Bytes) : Mux.Call :=
  ⟨timestamp, s.party.channel.idx, data⟩

/-- After the four writes, the last of which takes `n` bytes. -/
def afterWrites (s : Session σ μ) (timestamp : UInt32) (data : Bytes) (n : ℕ) : Session σ μ :=
  { s with
    party := { s.party with
      channel := { s.party.channel with sent := s.party.channel.sent ++ [data] } }
    position := .loop
    since := s.since ++ ((s.frame timestamp data).header ++ data.take n) }

/-- The words of a header, each in one write. -/
theorem run_words {words : List Bytes} {data : Bytes} (hok : ∀ t w, ok t (.word w))
    (hposition : s.position = .writing words data) (hwords : ∀ w ∈ words, w ≠ []) :
    Run P S api ok s
      { s with position := .writing [] data, since := s.since ++ words.flatten } := by
  induction words generalizing s with
  | nil =>
      obtain ⟨party, position, finish, taken, before, since⟩ := s
      obtain rfl : position = .writing [] data := hposition
      rw [List.flatten_nil, List.append_nil]
  | cons w words ih =>
      have hposition' : s.position = .writing ((w ++ []) :: words) data := by
        rw [hposition, List.append_nil]
      have hdoes : Does P S api s (.word w) _ :=
        .word hposition' (hwords w List.mem_cons_self)
      rw [if_pos rfl] at hdoes
      have hrest := ih (s := { s with position := .writing words data, since := s.since ++ w }) rfl
        fun w' hw' => hwords w' (List.mem_cons_of_mem w hw')
      rw [List.flatten_cons, ← List.append_assoc]
      exact .head ⟨_, hok _ _, hdoes⟩ hrest

/-- The writes of one frame. -/
theorem run_writes {data : Bytes} {n : ℕ} (hposition : s.position = .locking data)
    (timestamp : UInt32) (hn : n ≤ data.length) (hlock : ∀ t τ, ok t (.lock τ))
    (hword : ∀ t w, ok t (.word w))
    (hpayload : ∀ t, t.position = .writing [] data → ok t (.payload n)) :
    Run P S api ok s (s.afterWrites timestamp data n) := by
  have hlocked : Does P S api s (.lock timestamp) _ := .lock timestamp hposition
  have hne : ∀ w ∈ [bytes 4 timestamp.toNat, bytes 2 s.party.channel.idx.toNat,
      bytes 2 (UInt16.ofNat data.length).toNat], w ≠ [] := by
    intro w hw
    apply List.ne_nil_of_length_pos
    simp only [List.mem_cons, List.not_mem_nil, or_false] at hw
    rcases hw with rfl | rfl | rfl
    · rw [bytes_length]
      decide
    · rw [bytes_length]
      decide
    · rw [bytes_length]
      decide
  have hwords : Run P S api ok s _ :=
    ReflTransGen.head ⟨_, hlock _ _, hlocked⟩ (run_words hword rfl hne)
  have hwritten := hwords.tail ⟨_, hpayload _ rfl, .payload rfl hn⟩
  simpa only [afterWrites, frame, Mux.Call.header, List.flatten_cons, List.flatten_nil,
    List.append_nil, List.append_assoc] using hwritten

/-- A call of `Connection::send` that returns. The transport may take a part of the
payload only. -/
theorem run_send {T : Mux.Transport} {timestamp : UInt32} {data written : Bytes}
    (hposition : s.position = .locking data)
    (h : Mux.send T timestamp s.party.channel.idx data (s.before ++ s.since) = (.ok (), written)) :
    ∃ n, Run P S api (fun _ _ => True) s (s.afterWrites timestamp data n) ∧
      (s.afterWrites timestamp data n).before ++ (s.afterWrites timestamp data n).since =
        written := by
  have hword : ∀ {w w' word : Bytes} {next : Bytes → Mux.Written},
      (Mux.writeAll T w word).andThen next = (.ok (), w') → next (w ++ word) = (.ok (), w') := by
    intro w w' word next h
    by_cases hrefuses : Mux.Refuses T w word
    · obtain ⟨e, he⟩ := Mux.writeAll_of_refuses hrefuses
      cases hw : Mux.writeAll T w word with
      | mk o w'' =>
          rw [hw] at he h
          cases he
          cases h
    · rwa [Mux.writeAll_of_not_refuses hrefuses] at h
  replace h := hword (hword (hword h))
  rw [Mux.write] at h
  cases haccept : T.accept (s.before ++ s.since ++ bytes 4 timestamp.toNat ++
      bytes 2 s.party.channel.idx.toNat ++ bytes 2 (UInt16.ofNat data.length).toNat) data with
  | none =>
      rw [haccept] at h
      cases h
  | some n =>
      rw [haccept] at h
      cases h
      refine ⟨n, ?_, ?_⟩
      · exact run_writes hposition timestamp (T.accept_le haccept) (fun _ _ => trivial)
          (fun _ _ => trivial) fun _ _ => trivial
      · simp only [afterWrites, frame, Mux.Call.header, List.append_assoc]

/-- What `receive_bytes` makes of the carry and a payload. -/
theorem absorb_cases {bytes q : Bytes} {qs : List Bytes} {p p' : Party σ μ} {r : Outcome Unit}
    (h : Party.absorb P S bytes q (p.dequeue qs) = (r, p')) :
    ∃ ms tail carry, (P.decoder S).feed bytes q = (ms, tail) ∧ p' = p.afterRecv P ms qs carry ∧
      (r = .ok () → (P.deliver ms p.proto).1 = .ok () ∧ (∀ e, tail ≠ .fail e) ∧
        carry = tail.carry) := by
  cases hfeed : (P.decoder S).feed bytes q with
  | mk ms tail =>
      have habsorb := h.symm.trans (Party.absorb_eq P S (p.restoreCarry bytes) q qs hfeed)
      have hproto : (p.restoreCarry bytes).proto = p.proto := rfl
      simp only [Party.received, hproto] at habsorb
      cases hms : (P.deliver ms p.proto).1 with
      | ok u =>
          rw [hms] at habsorb
          cases tail with
          | done =>
              obtain ⟨rfl, rfl⟩ := Prod.mk.inj habsorb
              exact ⟨ms, .done, [], rfl, rfl, fun _ => ⟨hms, by simp, rfl⟩⟩
          | more rest =>
              obtain ⟨rfl, rfl⟩ := Prod.mk.inj habsorb
              exact ⟨ms, .more rest, rest, rfl, rfl, fun _ => ⟨hms, by simp, rfl⟩⟩
          | fail e =>
              obtain ⟨rfl, rfl⟩ := Prod.mk.inj habsorb
              exact ⟨ms, .fail e, [], rfl, rfl, fun hr => by cases hr⟩
      | err e => exact absurd hms (P.deliver_ne_err ms p.proto e)
      | panic e =>
          rw [hms] at habsorb
          obtain ⟨rfl, rfl⟩ := Prod.mk.inj habsorb
          exact ⟨ms, tail, [], rfl, rfl, fun hr => by cases hr⟩

/-- A payload whose messages are taken. -/
theorem Does.receiveFed {bytes q : Bytes} {qs : List Bytes} {ms : List μ}
    {tail : Streaming.Tail UInt8 Error} {proto : σ} (hposition : s.position = .receiving bytes)
    (hq : s.party.channel.receiver = q :: qs) (hfeed : (P.decoder S).feed bytes q = (ms, tail))
    (hdeliver : P.deliver ms s.party.proto = (.ok (), proto)) (htail : ∀ e, tail ≠ .fail e) :
    Does P S api s .receive
      { s with
        party := s.party.afterRecv P ms qs tail.carry
        position := .loop
        taken := s.taken ++ q } := by
  refine .receive hposition hq ?_
  refine Eq.trans (Party.absorb_eq P S (s.party.restoreCarry bytes) q qs hfeed) ?_
  have hdeliver' : P.deliver ms (s.party.restoreCarry bytes).proto = (.ok (), proto) := hdeliver
  cases tail with
  | done => simp only [Party.received, hdeliver']; rfl
  | more rest => simp only [Party.received, hdeliver']; rfl
  | fail e => exact absurd rfl (htail e)

/-- The actions of a call of `execute` that is not interrupted. -/
def Action.Inside : Action → Prop
  | .await | .receive | .send | .serialise | .lock _ | .word _ | .payload _ => True
  | _ => False

/-- A turn of the loop. -/
theorem run_turned {p : Party σ μ} (hok : ∀ t a, a.Inside → ok t a) (hposition : s.position = .loop)
    (h : Party.Turned P S s.party p) :
    ∃ s', Run P S api ok s s' ∧ s'.position = .loop ∧ s'.finish = s.finish ∧ s'.party = p := by
  cases h with
  | @send m proto data hnone hrole hsend hdata =>
      have h₁ : Run P S api ok s _ :=
        .single ⟨.send, hok _ .send trivial, .send hposition hnone hrole hsend⟩
      have h₂ := h₁.tail ⟨.serialise, hok _ .serialise trivial, .serialise rfl hdata⟩
      have h₃ : Run P S api ok s _ :=
        h₂.trans (run_writes rfl 0 (le_refl data.length) (fun t τ => hok t (.lock τ) trivial)
          (fun t w => hok t (.word w) trivial) fun t _ => hok t (.payload _) trivial)
      exact ⟨_, h₃, rfl, rfl, rfl⟩
  | @recv q qs ms tail proto hnone hrole hq hfeed hdeliver htail =>
      have h₁ : Run P S api ok s _ :=
        .single ⟨.await, hok _ .await trivial, .await hposition hnone hrole⟩
      have h₂ := h₁.tail ⟨.receive, hok _ .receive trivial, .receiveFed rfl hq hfeed hdeliver htail⟩
      exact ⟨_, h₂, rfl, rfl, rfl⟩

/-- A payload arrives while a call waits for one, and the call waits for the next. -/
theorem run_payload {bytes q : Bytes} {ms : List μ} {tail : Streaming.Tail UInt8 Error} {proto : σ}
    (hok : ∀ t a, a = .arrive q ∨ a = .receive ∨ a = .await → ok t a)
    (hposition : s.position = .receiving bytes) (hq : s.party.channel.receiver = [])
    (hfeed : (P.decoder S).feed bytes q = (ms, tail))
    (hdeliver : P.deliver ms s.party.proto = (.ok (), proto)) (htail : ∀ e, tail ≠ .fail e)
    (hnone : P.agency proto ≠ .none) (hrole : P.agency proto ≠ P.role proto) :
    Run P S api ok s
      { s with
        party := (s.party.afterRecv P ms [] tail.carry).takeCarry
        position := .receiving tail.carry
        taken := s.taken ++ q } := by
  have hproto : (s.party.afterRecv P ms [] tail.carry).proto = proto :=
    congrArg Prod.snd hdeliver
  have harrived : (s.party.arrive [q]).channel.receiver = [q] := by
    rw [Party.arrive, hq, List.nil_append]
  have harrive : Run P S api ok s { s with party := s.party.arrive [q] } :=
    .single ⟨_, hok _ _ (by simp), .arrive q⟩
  have hreceive := harrive.tail
    ⟨_, hok _ _ (by simp), .receiveFed hposition harrived hfeed hdeliver htail⟩
  refine hreceive.tail ⟨_, hok _ _ (by simp), .await rfl ?_ ?_⟩
  · exact hproto ▸ hnone
  · exact hproto ▸ hrole

/-- A call of `execute`: where it ends, and where it waits. -/
theorem run_execute (hok : ∀ t a, a.Inside → ok t a) (hposition : s.position = .loop) :
    match Party.execute P S s.party with
    | (.ok (), p) => ∃ s', Run P S api ok s s' ∧ s'.position = .loop ∧ s'.finish = s.finish ∧
        s'.party = p ∧ P.agency p.proto = .none
    | (.pending bytes, p) => ∃ s', Run P S api ok s s' ∧ s'.position = .receiving bytes ∧
        s'.party = p
    | (.err _, _) | (.panic _, _) => True := by
  refine Party.execute_rule
    (fun p => ∃ s', Run P S api ok s s' ∧ s'.position = .loop ∧ s'.finish = s.finish ∧
      s'.party = p)
    (fun x p => match (x, p) with
      | (.ok (), p) => ∃ s', Run P S api ok s s' ∧ s'.position = .loop ∧ s'.finish = s.finish ∧
          s'.party = p ∧ P.agency p.proto = .none
      | (.pending bytes, p) => ∃ s', Run P S api ok s s' ∧ s'.position = .receiving bytes ∧
          s'.party = p
      | (.err _, _) | (.panic _, _) => True)
    ?_ ?_ ?_ ?_ ⟨s, .refl, hposition, rfl, rfl⟩
  · rintro p ⟨s', hrun, hloop, hfinish, rfl⟩ hnone
    exact ⟨s', hrun, hloop, hfinish, rfl, hnone⟩
  · rintro p ⟨s', hrun, hloop, -, rfl⟩ hnone hrole _
    exact ⟨_, hrun.tail ⟨.await, hok _ .await trivial, .await hloop hnone hrole⟩, rfl, rfl⟩
  · rintro p p' ⟨s', hrun, hloop, hfinish, rfl⟩ hturned
    obtain ⟨s'', hrun', hloop', hfinish', hparty⟩ := run_turned hok hloop hturned
    exact ⟨s'', hrun.trans hrun', hloop', hfinish'.trans hfinish, hparty⟩
  · intros
    trivial

/-- With more functions there are more steps. -/
theorem Does.mono {api' : Api σ} {s' : Session σ μ} {a : Action}
    (hcalls : ∀ t setup finish, api.calls t setup finish → api'.calls t setup finish)
    (hasides : ∀ t u, api.asides t u → api'.asides t u) (h : Does P S api s a s') :
    Does P S api' s a s' := by
  cases h with
  | enter hposition h => exact .enter hposition (hcalls _ _ _ h)
  | aside hposition h => exact .aside hposition (hasides _ _ h)
  | abandon hposition => exact .abandon hposition
  | _ => constructor <;> assumption

/-! ### What a step does to the value

Most steps leave the protocol value alone. The others are listed here, together with
what is left to do after `execute`. -/

inductive Effect (P : Protocol σ μ) (api : Api σ) (s : Session σ μ) :
    Action → σ → (σ → σ) → Prop
  | quiet {a : Action} : a ≠ .leave → Effect P api s a s.party.proto s.finish
  | enter {setup finish : σ → σ} : api.calls s.party.proto setup finish →
      Effect P api s .enter (setup s.party.proto) finish
  | aside {proto : σ} : api.asides s.party.proto proto → Effect P api s .aside proto s.finish
  | leave : P.agency s.party.proto = .none →
      Effect P api s .leave (s.finish s.party.proto) s.finish
  | deliver {a : Action} (ms : List μ) : a ≠ .leave →
      Effect P api s a (P.deliver ms s.party.proto).2 s.finish
  | send {a : Action} {r : Outcome μ} {proto : σ} : a ≠ .leave →
      P.agency s.party.proto ≠ .none → P.agency s.party.proto = P.role s.party.proto →
      P.send s.party.proto = (r, proto) → Effect P api s a proto s.finish

theorem Does.effect {s' : Session σ μ} {a : Action} (h : Does P S api s a s') :
    Effect P api s a s'.party.proto s'.finish := by
  cases h with
  | enter _ hcalls => exact .enter hcalls
  | aside _ hasides => exact .aside hasides
  | leave _ hnone => exact .leave hnone
  | receive _ _ habsorb =>
      obtain ⟨ms, tail, carry, -, rfl, -⟩ := absorb_cases habsorb
      exact .deliver ms (by simp)
  | reject _ _ habsorb =>
      obtain ⟨ms, tail, carry, -, rfl, -⟩ := absorb_cases habsorb
      exact .deliver ms (by simp)
  | send _ hnone hrole hsend => exact .send (by simp) hnone hrole hsend
  | refuse _ hnone hrole hsend _ => exact .send (by simp) hnone hrole hsend
  | _ => exact .quiet (by simp)

end Session

/-! ### The public functions -/

namespace Chainsync

inductive Calls : ChainSync → (ChainSync → ChainSync) → (ChainSync → ChainSync) → Prop
  | findIntersect {s : ChainSync} (points : List Point) :
      Calls s (.ask (.intersect points)) fun s => s.takeIntersect.2
  | requestNext {s : ChainSync} : Calls s (.ask .reply) fun s => s.takeReply.2

def api : Api ChainSync where
  calls := Calls
  asides _ _ := False

end Chainsync

namespace Blockfetch

/-- `next` calls `execute` while the stream is open and no block is at hand. -/
inductive Calls : BlockFetch → (BlockFetch → BlockFetch) → (BlockFetch → BlockFetch) → Prop
  | run {s : BlockFetch} : Calls s .start id
  | done {s : BlockFetch} : Calls s .finish id
  | next {s : BlockFetch} : s.result = [] → s.state = .streaming → Calls s .start fun s => s.pop.2

def api : Api BlockFetch where
  calls := Calls
  asides s t := s.result ≠ [] ∧ t = s.pop.2

end Blockfetch

namespace Handshake

def api : Api Handshake where
  calls _ setup finish := setup = id ∧ finish = id
  asides _ _ := False

end Handshake

/-! ### A call of a chain-sync client -/

namespace Chainsync

open Session

/-- A chain-sync client that has asked for the next block. -/
def asking : Party ChainSync Message where
  proto := { query := some .reply, intersect := none, reply := none, state := .canAwait }
  channel := .open 0x0002
  log := [.tx .requestNext]

/-- The same after the request has been written. -/
def waiting : Party ChainSync Message :=
  { asking with channel := { asking.channel with sent := [[0x81, 0]] } }

variable (ok : Session ChainSync Message → Action → Prop)

/-- Its call, up to the lock. -/
theorem run_asking (hok : ∀ s a, a = .enter ∨ a = .send ∨ a = .serialise ∨ a = .await → ok s a) :
    ∃ finish, Run (protocol Cbor.serdeCbor id) Cbor.serdeCbor api ok (start client [])
      ⟨asking, .locking [0x81, 0], finish, [], [], []⟩ := by
  have henter : Run (protocol Cbor.serdeCbor id) Cbor.serdeCbor api ok (start client []) _ :=
    .single ⟨.enter, hok _ _ (by simp), .enter rfl .requestNext⟩
  have hsend := henter.tail ⟨.send, hok _ _ (by simp), .send rfl (by decide) rfl rfl⟩
  have hdata :
      (protocol Cbor.serdeCbor id).toBytes Cbor.serdeCbor .requestNext = .ok [0x81, 0] := rfl
  have hserialise := hsend.tail ⟨.serialise, hok _ _ (by simp), .serialise rfl hdata⟩
  exact ⟨_, hserialise⟩

/-- The call goes on until it waits for an answer. -/
theorem run_waiting (hok : ∀ s a, a = .enter ∨ a = .send ∨ a = .serialise ∨ a = .await → ok s a)
    (hlock : ∀ t τ, ok t (.lock τ)) (hword : ∀ t w, ok t (.word w))
    (hpayload : ∀ t, t.position = .writing [] [0x81, 0] → ok t (.payload 2)) :
    ∃ finish since, Run (protocol Cbor.serdeCbor id) Cbor.serdeCbor api ok (start client [])
      ⟨waiting, .receiving [], finish, [], [], since⟩ := by
  obtain ⟨finish, hrun⟩ := run_asking ok hok
  have hwrites := hrun.trans (run_writes rfl 0 (by decide) hlock hword hpayload)
  have hnone : ChainSync.agency asking.proto ≠ .none := by decide
  have hrole : ChainSync.agency asking.proto ≠ ChainSync.role asking.proto := by decide
  exact ⟨finish, _, hwrites.tail ⟨.await, hok _ _ (by simp), .await rfl hnone hrole⟩⟩

end Chainsync

end Ouroboros
