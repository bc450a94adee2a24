import Ouroboros.Library.Transition
import Ouroboros.Protocols.Values

/-!
The `Protocol` trait: a party, its channel, and the loop that drives it.

A `Protocol` collects what an implementation of the trait provides. A `Party`
is a protocol value together with its channel: the payloads the demultiplexer
has queued for it, the bytes carried over from the last payload, and the
payloads handed to the connection. The transport below the channel is reliable
here, so `Channel::send` completes and `Channel::recv` waits while the queue is
empty.

`Party.turn` is one iteration of the loop in `execute`, and `Party.execute` is
the loop. A call that waits for data ends as `Exit.pending`; the carry it has
moved out of the channel is then a local variable of the suspended call.
-/

namespace Ouroboros

open Relation Streaming

inductive Agency
  | client
  | server
  | none
  deriving DecidableEq

/-- An implementation of the trait. The last field is what makes `execute`
come to an end: a party that has sent a message leaves the turn to its peer. -/
structure Protocol (σ μ : Type) where
  role : σ → Agency
  agency : σ → Agency
  send : σ → Outcome μ × σ
  recv : σ → μ → Outcome Unit × σ
  fromIter : Cursor μ
  toValues : μ → Outcome (List Value)
  send_yields : ∀ {s m s'}, agency s = role s → send s = (.ok m, s') → agency s' ≠ role s'

structure Channel where
  idx : UInt16
  receiver : List Bytes
  bytes : Bytes
  sent : List Bytes

/-- `Connection::channel`: nothing received and nothing carried over. -/
def Channel.open (idx : UInt16) : Channel := ⟨idx, [], [], []⟩

/-- What the log records of a run: the messages sent, and every call of `recv`
with the state it found, its result and the state it left. -/
inductive Event (σ μ : Type)
  | tx (message : μ)
  | rx (before : σ) (message : μ) (result : Outcome Unit) (after : σ)

structure Party (σ μ : Type) where
  proto : σ
  channel : Channel
  log : List (Event σ μ)

/-- How a call ends. -/
inductive Exit (α : Type)
  | ok (a : α)
  | err (e : Error)
  | panic (e : Error)
  /-- Waiting for the channel, with the carry in a local variable. -/
  | pending (bytes : Bytes)

def Exit.map {α β : Type} (f : α → β) : Exit α → Exit β
  | .ok a => .ok (f a)
  | .err e => .err e
  | .panic e => .panic e
  | .pending bytes => .pending bytes

/-- One iteration of the loop in `execute`. -/
inductive Turn (σ μ : Type)
  | stop
  | wait
  | next (p : Party σ μ)
  | panic (e : Error) (p : Party σ μ)

variable {σ μ : Type}

/-- `Message::to_bytes`. -/
def Protocol.toBytes (P : Protocol σ μ) (S : SerdeCbor) (message : μ) : Outcome Bytes := do
  let values ← P.toValues message
  (Outcome.ofExcept (S.toVec values)).unwrap

/-- The streaming deserializer followed by `Message::from_iter`. -/
def Protocol.decoder (P : Protocol σ μ) (S : SerdeCbor) : Decoder UInt8 μ Error where
  next data :=
    match S.next data with
    | .none => .none
    | .eof => .eof
    | .fail e => .fail (.text e)
    | .item values len =>
      match P.fromIter.eval values with
      | .ok message => .item message len
      | .err e | .panic e => .fail e
  next_none data := by
    rw [← S.next_none data]
    cases S.next data with
    | item values len =>
        simp only [reduceCtorEq, iff_false]
        cases P.fromIter.eval values <;> simp
    | _ => simp
  next_len {data message n} h := by
    cases hdata : S.next data with
    | item values len =>
        rw [hdata] at h
        cases hvalues : P.fromIter.eval values with
        | ok message' =>
            simp only [hvalues, Next.item.injEq] at h
            obtain ⟨-, rfl⟩ := h
            exact S.next_len hdata
        | err e => simp [hvalues] at h
        | panic e => simp [hvalues] at h
    | _ => simp [hdata] at h

namespace Party

/-- `send_bytes`. The message is logged before it is written. -/
def sendBytes (P : Protocol σ μ) (S : SerdeCbor) (p : Party σ μ) : Outcome Bytes × Party σ μ :=
  match P.send p.proto with
  | (.ok message, s) =>
    ((P.toBytes S message).unwrap, { p with proto := s, log := p.log ++ [.tx message] })
  | (.err e, s) | (.panic e, s) => (.panic e, { p with proto := s })

/-- `recv`, with its log entry. -/
def recv (P : Protocol σ μ) (p : Party σ μ) (message : μ) : Outcome Unit × Party σ μ :=
  ((P.recv p.proto message).1.unwrap,
    { p with
      proto := (P.recv p.proto message).2
      log := p.log ++ [.rx p.proto message (P.recv p.proto message).1
        (P.recv p.proto message).2] })

/-- The loop of `receive_bytes`: `offset` is the position of the deserializer
and `lastOffset` the end of the last message. -/
def receiveLoop (P : Protocol σ μ) (S : SerdeCbor) (data : Bytes) (offset lastOffset : ℕ)
    (p : Party σ μ) : Outcome (Option Bytes) × Party σ μ :=
  match _h : S.next (data.drop offset) with
  | .none =>
    if offset = data.length then (.ok none, p)
    else (.panic (.text "assertion failed"), p)
  -- an unfinished message is kept for the next payload
  | .eof => (.ok (some (data.drop lastOffset)), p)
  | .fail e => (.panic (.text e), p)
  | .item values len =>
    match P.fromIter.eval values with
    | .ok message =>
      match recv P p message with
      | (.ok (), p') => receiveLoop P S data (offset + len) (offset + len) p'
      | (.err e, p') | (.panic e, p') => (.panic e, p')
    | .err e | .panic e => (.panic e, p)
termination_by data.length - offset
decreasing_by
  have hlen := S.next_len _h
  rw [List.length_drop] at hlen
  omega

def receiveBytes (P : Protocol σ μ) (S : SerdeCbor) (data : Bytes) (p : Party σ μ) :
    Outcome (Option Bytes) × Party σ μ :=
  receiveLoop P S data 0 0 p

/-- The carry moves from the channel to a local variable. -/
def takeCarry (p : Party σ μ) : Party σ μ :=
  { p with channel := { p.channel with bytes := [] } }

/-- A payload is taken from the queue while the carry is in a local variable. -/
def dequeue (p : Party σ μ) (receiver : List Bytes) : Party σ μ :=
  { p with channel := { p.channel with receiver, bytes := [] } }

/-- The receiving branch of the loop once `newData` has arrived. -/
def absorb (P : Protocol σ μ) (S : SerdeCbor) (bytes newData : Bytes) (p : Party σ μ) :
    Outcome Unit × Party σ μ :=
  match receiveBytes P S (bytes ++ newData) p with
  | (.ok rest, p') =>
    (.ok (), { p' with channel := { p'.channel with bytes := rest.getD [] } })
  | (.err e, p') | (.panic e, p') => (.panic e, p')

/-- One iteration of the loop in `execute`. The debug assertions of `send_bytes`
and `receive_bytes` repeat the tests made here. -/
def turn (P : Protocol σ μ) (S : SerdeCbor) (p : Party σ μ) : Turn σ μ :=
  if P.agency p.proto = .none then .stop
  else if P.agency p.proto = P.role p.proto then
    match sendBytes P S p with
    | (.ok data, p') =>
      .next { p' with channel := { p'.channel with sent := p'.channel.sent ++ [data] } }
    | (.err e, p') | (.panic e, p') => .panic e p'
  else
    -- the carry is taken out of the channel before the wait
    match p.channel.receiver with
    | [] => .wait
    | newData :: receiver =>
      match absorb P S p.channel.bytes newData (p.dequeue receiver) with
      | (.ok (), p') => .next p'
      | (.err e, p') | (.panic e, p') => .panic e p'

end Party

/-! ### Messages in sequence

`deliver` hands a list of messages to `recv` one after the other. It is what
`receive_bytes` does with the messages that its data parses to
(`Party.receiveLoop_eq`), and the bytes are out of the picture from there on. -/

namespace Protocol

def deliver (P : Protocol σ μ) : List μ → σ → Outcome Unit × σ
  | [], s => (.ok (), s)
  | m :: ms, s =>
    match P.recv s m with
    | (.ok (), s') => P.deliver ms s'
    | (.err e, s') | (.panic e, s') => (.panic e, s')

/-- The log entries of these deliveries. -/
def deliveries (P : Protocol σ μ) : List μ → σ → List (Event σ μ)
  | [], _ => []
  | m :: ms, s =>
    .rx s m (P.recv s m).1 (P.recv s m).2 ::
      match P.recv s m with
      | (.ok (), s') => P.deliveries ms s'
      | (.err _, _) | (.panic _, _) => []

variable {P : Protocol σ μ} {S : SerdeCbor}

theorem deliver_cons_ok {m : μ} {ms : List μ} {s s' : σ} (h : P.recv s m = (.ok (), s')) :
    P.deliver (m :: ms) s = P.deliver ms s' := by
  simp only [deliver, h]

theorem deliveries_cons_ok {m : μ} {ms : List μ} {s s' : σ} (h : P.recv s m = (.ok (), s')) :
    P.deliveries (m :: ms) s = .rx s m (.ok ()) s' :: P.deliveries ms s' := by
  simp only [deliveries, h]

theorem deliveries_append {ms : List μ} {s s' : σ} (h : P.deliver ms s = (.ok (), s'))
    (ns : List μ) : P.deliveries (ms ++ ns) s = P.deliveries ms s ++ P.deliveries ns s' := by
  induction ms generalizing s with
  | nil =>
      cases h
      rfl
  | cons m ms ih =>
      cases hm : P.recv s m with
      | mk r t =>
          cases r with
          | ok u =>
              rw [deliver_cons_ok hm] at h
              rw [List.cons_append, deliveries_cons_ok hm, deliveries_cons_ok hm, ih h,
                List.cons_append]
          | err e => simp [deliver, hm] at h
          | panic e => simp [deliver, hm] at h

/-- The messages up to the one that is rejected. -/
theorem exists_rejected {ms : List μ} {s : σ} {e : Error} (h : (P.deliver ms s).1 = .panic e) :
    ∃ done m todo s', ms = done ++ m :: todo ∧ P.deliver done s = (.ok (), s') ∧
      (P.recv s' m).1 ≠ .ok () := by
  induction ms generalizing s with
  | nil => simp [deliver] at h
  | cons m ms ih =>
      cases hm : P.recv s m with
      | mk r t =>
          cases r with
          | ok u =>
              rw [deliver_cons_ok hm] at h
              obtain ⟨done, m', todo, s', rfl, hdone, hm'⟩ := ih h
              exact ⟨m :: done, m', todo, s', rfl, by rw [deliver_cons_ok hm, hdone], hm'⟩
          | err e' => exact ⟨[], m, ms, s, rfl, rfl, by simp [hm]⟩
          | panic e' => exact ⟨[], m, ms, s, rfl, rfl, by simp [hm]⟩

theorem deliveries_cons_rejected {m : μ} {s : σ} (h : (P.recv s m).1 ≠ .ok ()) (ms : List μ) :
    P.deliveries (m :: ms) s = [.rx s m (P.recv s m).1 (P.recv s m).2] := by
  cases hm : P.recv s m with
  | mk r t =>
      cases r with
      | ok u => simp [hm] at h
      | err e => simp [deliveries, hm]
      | panic e => simp [deliveries, hm]

theorem deliver_ne_err (ms : List μ) (s : σ) (e : Error) : (P.deliver ms s).1 ≠ .err e := by
  induction ms generalizing s with
  | nil => simp [deliver]
  | cons m ms ih =>
      simp only [deliver]
      split
      · exact ih _
      · simp
      · simp

/-- What every call of `recv` keeps is kept by all the messages of a payload. -/
theorem deliver_keeps {I : σ → Prop} (hrecv : ∀ s m, I s → I (P.recv s m).2) (ms : List μ) {s : σ}
    (hs : I s) : I (P.deliver ms s).2 := by
  induction ms generalizing s with
  | nil => exact hs
  | cons m ms ih =>
      have hm := hrecv s m hs
      simp only [deliver]
      split
      case h_1 s' heq =>
        rw [heq] at hm
        exact ih hm
      case h_2 e s' heq =>
        rw [heq] at hm
        exact hm
      case h_3 e s' heq =>
        rw [heq] at hm
        exact hm

theorem decoder_item {data : Bytes} {values : List Value} {len : ℕ} {m : μ}
    (h : S.next data = .item values len) (hm : P.fromIter.eval values = .ok m) :
    (P.decoder S).next data = .item m len := by
  simp only [decoder, h, hm]

theorem decoder_err {data : Bytes} {values : List Value} {len : ℕ} {e : Error}
    (h : S.next data = .item values len)
    (hm : P.fromIter.eval values = .err e ∨ P.fromIter.eval values = .panic e) :
    (P.decoder S).next data = .fail e := by
  rcases hm with hm | hm <;> simp only [decoder, h, hm]

/-! ### Messages on the wire -/

/-- `w` is a message on the wire: an item of the streaming deserializer, whose
values decode to the message. -/
def Encoded (P : Protocol σ μ) (S : SerdeCbor) (message : μ) (w : Bytes) : Prop :=
  ∃ values, S.toDecoder.Codeword w values ∧ P.fromIter.eval values = .ok message

theorem Encoded.codeword {message : μ} {w : Bytes}
    (h : P.Encoded S message w) : (P.decoder S).Codeword w message := by
  obtain ⟨values, hword, hmessage⟩ := h
  refine ⟨fun rest => decoder_item (hword.item rest) hmessage, fun p hp hne hpw => ?_⟩
  simp only [decoder, hword.eof p hp hne hpw]

/-- What `to_vec` writes for a message of plain values. -/
theorem encoded_of_toVec (hS : S.Lawful)
    {message : μ} {values : List Value} {w : Bytes} (hplain : Plain values)
    (hw : S.toVec values = .ok w) (hmessage : P.fromIter.eval values = .ok message) :
    P.Encoded S message w :=
  ⟨values, hS.codeword values w hplain hw, hmessage⟩

end Protocol

namespace Party

/-- The party after the messages `ms` have been handed to `recv`. -/
def delivered (P : Protocol σ μ) (ms : List μ) (p : Party σ μ) : Party σ μ :=
  { p with proto := (P.deliver ms p.proto).2, log := p.log ++ P.deliveries ms p.proto }

/-- The result of `receive_bytes` when its data parses to `ms` and `tail`. -/
def received (P : Protocol σ μ) (p : Party σ μ) (ms : List μ) (tail : Tail UInt8 Error) :
    Outcome (Option Bytes) :=
  match (P.deliver ms p.proto).1, tail with
  | .ok (), .done => .ok none
  | .ok (), .more rest => .ok (some rest)
  | .ok (), .fail e => .panic e
  | .err e, _ | .panic e, _ => .panic e

theorem recv_delivered_ok {P : Protocol σ μ} {p : Party σ μ} {m : μ} {s : σ} (ms : List μ)
    (h : P.recv p.proto m = (.ok (), s)) :
    (recv P p m).2.delivered P ms = p.delivered P (m :: ms) := by
  simp only [recv, delivered, h, Protocol.deliver_cons_ok h, Protocol.deliveries_cons_ok h,
    List.append_assoc, List.cons_append, List.nil_append]

theorem receiveLoop_eq (P : Protocol σ μ) (S : SerdeCbor) (data : Bytes) (offset : ℕ)
    (p : Party σ μ) (hoffset : offset ≤ data.length) :
    receiveLoop P S data offset offset p =
      (received P p ((P.decoder S).parse (data.drop offset)).1
        ((P.decoder S).parse (data.drop offset)).2,
        p.delivered P ((P.decoder S).parse (data.drop offset)).1) := by
  induction hn : data.length - offset using Nat.strongRecOn generalizing offset p with
  | _ n ih =>
    rw [receiveLoop]
    split
    case h_1 hnext =>
      -- no item is left exactly at the end of the data
      have hnil := (S.next_none _).mp hnext
      have hend : offset = data.length := by
        have hlen := congrArg List.length hnil
        simp only [List.length_drop, List.length_nil] at hlen
        omega
      rw [if_pos hend, hnil, Decoder.parse_nil]
      simp [received, delivered, Protocol.deliver, Protocol.deliveries]
    case h_2 hnext =>
      rw [Decoder.parse_eof (P.decoder S) (by simp only [Protocol.decoder, hnext])]
      simp [received, delivered, Protocol.deliver, Protocol.deliveries]
    case h_3 e hnext =>
      rw [Decoder.parse_fail (P.decoder S) (e := .text e)
        (by simp only [Protocol.decoder, hnext])]
      simp [received, delivered, Protocol.deliver, Protocol.deliveries]
    case h_4 values len hnext =>
      have hlen := S.next_len hnext
      rw [List.length_drop] at hlen
      split
      case h_1 message hm =>
        rw [(P.decoder S).parse_item (Protocol.decoder_item hnext hm), List.drop_drop]
        cases hrecv : P.recv p.proto message with
        | mk r s =>
            cases r with
            | ok u =>
                have hih := ih (data.length - (offset + len)) (by omega) (offset + len)
                  (recv P p message).2 (by omega) rfl
                have hproto : (recv P p message).2.proto = s := by simp only [recv, hrecv]
                have hok : recv P p message = (.ok (), (recv P p message).2) := by
                  simp only [recv, hrecv, Outcome.unwrap_ok]
                rw [hok]
                simp only
                rw [hih, recv_delivered_ok _ hrecv]
                simp only [received, hproto, Protocol.deliver_cons_ok hrecv]
            | err e =>
                simp [recv, received, delivered, Protocol.deliver, Protocol.deliveries, hrecv]
            | panic e =>
                simp [recv, received, delivered, Protocol.deliver, Protocol.deliveries, hrecv]
      case h_2 e hm =>
        rw [(P.decoder S).parse_fail (Protocol.decoder_err hnext (.inl hm))]
        simp [received, delivered, Protocol.deliver, Protocol.deliveries]
      case h_3 e hm =>
        rw [(P.decoder S).parse_fail (Protocol.decoder_err hnext (.inr hm))]
        simp [received, delivered, Protocol.deliver, Protocol.deliveries]

/-! ### What a turn can do -/

def afterSend (p : Party σ μ) (s : σ) (m : μ) (data : Bytes) : Party σ μ where
  proto := s
  channel := { p.channel with sent := p.channel.sent ++ [data] }
  log := p.log ++ [.tx m]

/-- The party after a payload whose data parsed to `ms` and left `carry`. -/
def afterRecv (P : Protocol σ μ) (p : Party σ μ) (ms : List μ) (receiver : List Bytes)
    (carry : Bytes) : Party σ μ :=
  { p.delivered P ms with channel := { p.channel with receiver, bytes := carry } }

/-- The turns after which the loop goes on. -/
inductive Turned (P : Protocol σ μ) (S : SerdeCbor) (p : Party σ μ) : Party σ μ → Prop
  | send {m : μ} {s : σ} {data : Bytes} :
      P.agency p.proto ≠ .none → P.agency p.proto = P.role p.proto →
      P.send p.proto = (.ok m, s) → P.toBytes S m = .ok data →
      Turned P S p (p.afterSend s m data)
  | recv {q : Bytes} {qs : List Bytes} {ms : List μ} {tail : Tail UInt8 Error} {s : σ} :
      P.agency p.proto ≠ .none → P.agency p.proto ≠ P.role p.proto →
      p.channel.receiver = q :: qs → (P.decoder S).feed p.channel.bytes q = (ms, tail) →
      P.deliver ms p.proto = (.ok (), s) → (∀ e, tail ≠ .fail e) →
      Turned P S p (p.afterRecv P ms qs tail.carry)

/-- The turns that end in a panic. -/
inductive Faulted (P : Protocol σ μ) (S : SerdeCbor) (p : Party σ μ) : Error → Party σ μ → Prop
  | send {r : Outcome μ} {s : σ} {e : Error} :
      P.agency p.proto ≠ .none → P.agency p.proto = P.role p.proto →
      P.send p.proto = (r, s) → (r >>= P.toBytes S).unwrap = .panic e →
      Faulted P S p e { p with proto := s, log := p.log ++ (match r with
        | .ok m => [.tx m]
        | .err _ | .panic _ => []) }
  | recv {q : Bytes} {qs : List Bytes} {ms : List μ} {tail : Tail UInt8 Error} {e : Error} :
      P.agency p.proto ≠ .none → P.agency p.proto ≠ P.role p.proto →
      p.channel.receiver = q :: qs → (P.decoder S).feed p.channel.bytes q = (ms, tail) →
      (P.deliver ms p.proto).1 = .panic e ∨
        (P.deliver ms p.proto).1 = .ok () ∧ tail = .fail e →
      Faulted P S p e (p.afterRecv P ms qs [])

theorem absorb_eq (P : Protocol σ μ) (S : SerdeCbor) (p : Party σ μ) (q : Bytes)
    (qs : List Bytes) {ms : List μ} {tail : Tail UInt8 Error}
    (h : (P.decoder S).feed p.channel.bytes q = (ms, tail)) :
    absorb P S p.channel.bytes q (p.dequeue qs) =
      match received P p ms tail with
      | .ok rest => (.ok (), p.afterRecv P ms qs (rest.getD []))
      | .err e | .panic e => (.panic e, p.afterRecv P ms qs []) := by
  rw [Decoder.feed] at h
  have hloop := receiveLoop_eq P S (p.channel.bytes ++ q) 0 (p.dequeue qs) (Nat.zero_le _)
  rw [List.drop_zero, h] at hloop
  have hreceived : received P (p.dequeue qs) ms tail = received P p ms tail := rfl
  simp only [absorb, receiveBytes, hloop, hreceived]
  cases received P p ms tail <;> rfl

theorem turn_stop_iff {P : Protocol σ μ} {S : SerdeCbor} {p : Party σ μ} :
    turn P S p = .stop ↔ P.agency p.proto = .none := by
  refine ⟨fun h => ?_, fun h => by rw [turn, if_pos h]⟩
  by_contra hnone
  simp only [turn, if_neg hnone] at h
  repeat' split at h
  all_goals cases h

theorem turn_wait_iff {P : Protocol σ μ} {S : SerdeCbor} {p : Party σ μ} :
    turn P S p = .wait ↔ P.agency p.proto ≠ .none ∧ P.agency p.proto ≠ P.role p.proto ∧
      p.channel.receiver = [] := by
  constructor
  · intro h
    simp only [turn] at h
    split_ifs at h with hnone hrole
    · split at h <;> cases h
    · refine ⟨hnone, hrole, ?_⟩
      cases hq : p.channel.receiver with
      | nil => rfl
      | cons q qs =>
          rw [hq] at h
          simp only at h
          split at h <;> cases h
  · rintro ⟨hnone, hrole, hq⟩
    rw [turn, if_neg hnone, if_neg hrole, hq]

theorem turn_send_ok {P : Protocol σ μ} {S : SerdeCbor} {p : Party σ μ} {m : μ} {s : σ}
    {data : Bytes} (hnone : P.agency p.proto ≠ .none)
    (hrole : P.agency p.proto = P.role p.proto) (hsend : P.send p.proto = (.ok m, s))
    (hdata : P.toBytes S m = .ok data) : turn P S p = .next (p.afterSend s m data) := by
  simp only [turn, if_neg hnone, if_pos hrole, sendBytes, hsend, hdata, Outcome.unwrap_ok]
  rfl

theorem turn_send_cases {P : Protocol σ μ} {S : SerdeCbor} {p : Party σ μ}
    (hnone : P.agency p.proto ≠ .none) (hrole : P.agency p.proto = P.role p.proto) :
    (∃ p', turn P S p = .next p' ∧ Turned P S p p') ∨
      ∃ e p', turn P S p = .panic e p' ∧ Faulted P S p e p' := by
  cases hsend : P.send p.proto with
  | mk r s =>
      cases r with
      | ok m =>
          cases hdata : P.toBytes S m with
          | ok data =>
              exact .inl ⟨_, turn_send_ok hnone hrole hsend hdata, .send hnone hrole hsend hdata⟩
          | err e =>
              refine .inr ⟨e, _, ?_, .send hnone hrole hsend (by simp [hdata])⟩
              simp [turn, if_neg hnone, if_pos hrole, sendBytes, hsend, hdata]
          | panic e =>
              refine .inr ⟨e, _, ?_, .send hnone hrole hsend (by simp [hdata])⟩
              simp [turn, if_neg hnone, if_pos hrole, sendBytes, hsend, hdata]
      | err e =>
          refine .inr ⟨e, _, ?_, .send hnone hrole hsend rfl⟩
          simp [turn, if_neg hnone, if_pos hrole, sendBytes, hsend]
      | panic e =>
          refine .inr ⟨e, _, ?_, .send hnone hrole hsend rfl⟩
          simp [turn, if_neg hnone, if_pos hrole, sendBytes, hsend]

theorem turn_recv_eq {P : Protocol σ μ} {S : SerdeCbor} {p : Party σ μ} {q : Bytes}
    {qs : List Bytes} {ms : List μ} {tail : Tail UInt8 Error}
    (hnone : P.agency p.proto ≠ .none) (hrole : P.agency p.proto ≠ P.role p.proto)
    (hq : p.channel.receiver = q :: qs)
    (hfeed : (P.decoder S).feed p.channel.bytes q = (ms, tail)) :
    turn P S p =
      match received P p ms tail with
      | .ok rest => .next (p.afterRecv P ms qs (rest.getD []))
      | .err e | .panic e => .panic e (p.afterRecv P ms qs []) := by
  rw [turn, if_neg hnone, if_neg hrole, hq]
  simp only [absorb_eq P S p q qs hfeed]
  cases received P p ms tail <;> rfl

theorem turn_recv_cases {P : Protocol σ μ} {S : SerdeCbor} {p : Party σ μ} {q : Bytes}
    {qs : List Bytes} (hnone : P.agency p.proto ≠ .none)
    (hrole : P.agency p.proto ≠ P.role p.proto) (hq : p.channel.receiver = q :: qs) :
    (∃ p', turn P S p = .next p' ∧ Turned P S p p') ∨
      ∃ e p', turn P S p = .panic e p' ∧ Faulted P S p e p' := by
  cases hfeed : (P.decoder S).feed p.channel.bytes q with
  | mk ms tail =>
      rw [turn_recv_eq hnone hrole hq hfeed]
      cases hms : P.deliver ms p.proto with
      | mk r s =>
          cases r with
          | ok u =>
              cases tail with
              | done =>
                  exact .inl ⟨_, by simp only [received, hms]; rfl,
                    .recv hnone hrole hq hfeed hms (by simp)⟩
              | more rest =>
                  exact .inl ⟨_, by simp only [received, hms]; rfl,
                    .recv hnone hrole hq hfeed hms (by simp)⟩
              | fail e =>
                  exact .inr ⟨e, _, by simp only [received, hms],
                    .recv hnone hrole hq hfeed (.inr ⟨by rw [hms], rfl⟩)⟩
          | err e => exact absurd (by rw [hms]) (P.deliver_ne_err ms p.proto e)
          | panic e =>
              exact .inr ⟨e, _, by simp only [received, hms],
                .recv hnone hrole hq hfeed (.inl (by rw [hms]))⟩

/-- The four ways a turn can go. -/
theorem turn_cases (P : Protocol σ μ) (S : SerdeCbor) (p : Party σ μ) :
    (turn P S p = .stop ∧ P.agency p.proto = .none) ∨
    (turn P S p = .wait ∧ P.agency p.proto ≠ .none ∧ P.agency p.proto ≠ P.role p.proto ∧
      p.channel.receiver = []) ∨
    (∃ p', turn P S p = .next p' ∧ Turned P S p p') ∨
    (∃ e p', turn P S p = .panic e p' ∧ Faulted P S p e p') := by
  by_cases hnone : P.agency p.proto = .none
  · exact .inl ⟨turn_stop_iff.mpr hnone, hnone⟩
  by_cases hrole : P.agency p.proto = P.role p.proto
  · exact .inr (.inr (turn_send_cases hnone hrole))
  cases hq : p.channel.receiver with
  | nil => exact .inr (.inl ⟨turn_wait_iff.mpr ⟨hnone, hrole, hq⟩, hnone, hrole, rfl⟩)
  | cons q qs => exact .inr (.inr (turn_recv_cases hnone hrole hq))

theorem turned_of_next {P : Protocol σ μ} {S : SerdeCbor} {p p' : Party σ μ}
    (h : turn P S p = .next p') : Turned P S p p' := by
  rcases turn_cases P S p with ⟨h', -⟩ | ⟨h', -⟩ | ⟨p'', h', ht⟩ | ⟨e, p'', h', -⟩ <;>
    rw [h] at h' <;> cases h'
  exact ht

theorem faulted_of_panic {P : Protocol σ μ} {S : SerdeCbor} {p p' : Party σ μ} {e : Error}
    (h : turn P S p = .panic e p') : Faulted P S p e p' := by
  rcases turn_cases P S p with ⟨h', -⟩ | ⟨h', -⟩ | ⟨p'', h', -⟩ | ⟨e', p'', h', hf⟩ <;>
    rw [h] at h' <;> cases h'
  exact hf

/-- Nothing is sent in a turn that ends in a panic. -/
theorem Faulted.sent {P : Protocol σ μ} {S : SerdeCbor} {p p' : Party σ μ} {e : Error}
    (h : Faulted P S p e p') : p'.channel.sent = p.channel.sent := by
  cases h <;> rfl

theorem turn_recv_ok {P : Protocol σ μ} {S : SerdeCbor} {p : Party σ μ} {q : Bytes}
    {qs : List Bytes} {ms : List μ} {tail : Tail UInt8 Error} {s : σ}
    (hnone : P.agency p.proto ≠ .none) (hrole : P.agency p.proto ≠ P.role p.proto)
    (hq : p.channel.receiver = q :: qs)
    (hfeed : (P.decoder S).feed p.channel.bytes q = (ms, tail))
    (hms : P.deliver ms p.proto = (.ok (), s)) (htail : ∀ e, tail ≠ .fail e) :
    turn P S p = .next (p.afterRecv P ms qs tail.carry) := by
  rw [turn_recv_eq hnone hrole hq hfeed]
  cases tail with
  | done => simp only [received, hms]; rfl
  | more rest => simp only [received, hms]; rfl
  | fail e => exact absurd rfl (htail e)

theorem turn_recv_panic {P : Protocol σ μ} {S : SerdeCbor} {p : Party σ μ} {q : Bytes}
    {qs : List Bytes} {ms : List μ} {tail : Tail UInt8 Error}
    (hnone : P.agency p.proto ≠ .none) (hrole : P.agency p.proto ≠ P.role p.proto)
    (hq : p.channel.receiver = q :: qs)
    (hfeed : (P.decoder S).feed p.channel.bytes q = (ms, tail))
    (h : (∃ e, (P.deliver ms p.proto).1 = .panic e) ∨ ∃ e, tail = .fail e) :
    ∃ e, turn P S p = .panic e (p.afterRecv P ms qs []) := by
  rw [turn_recv_eq hnone hrole hq hfeed]
  simp only [received]
  cases hms : (P.deliver ms p.proto).1 with
  | ok u =>
      rcases h with ⟨e, h⟩ | ⟨e, rfl⟩
      · rw [hms] at h
        cases h
      · exact ⟨e, rfl⟩
  | err e => exact absurd hms (P.deliver_ne_err ms p.proto e)
  | panic e => exact ⟨e, rfl⟩

/-! ### The loop -/

/-- Payloads still to be read, and whether the party is about to send. -/
def budget (P : Protocol σ μ) (p : Party σ μ) : ℕ :=
  2 * p.channel.receiver.length + if P.agency p.proto = P.role p.proto then 1 else 0

theorem budget_le (P : Protocol σ μ) (p : Party σ μ) :
    budget P p ≤ 2 * p.channel.receiver.length + 1 := by
  rw [budget]
  split <;> omega

theorem Turned.budget_lt {P : Protocol σ μ} {S : SerdeCbor} {p p' : Party σ μ}
    (h : Turned P S p p') : budget P p' < budget P p := by
  cases h with
  | send _ hrole hsend _ =>
      have hyield := P.send_yields hrole hsend
      simp [budget, afterSend, hrole, hyield]
  | @recv q qs ms tail s _ hrole hq _ _ _ =>
      have hle : budget P (p.afterRecv P ms qs tail.carry) ≤ 2 * qs.length + 1 :=
        budget_le P (p.afterRecv P ms qs tail.carry)
      have hlen : 2 * (q :: qs).length ≤ budget P p := by
        rw [budget, if_neg hrole, hq]
        omega
      rw [List.length_cons] at hlen
      omega

/-- The loop of `execute`. -/
def execute (P : Protocol σ μ) (S : SerdeCbor) (p : Party σ μ) : Exit Unit × Party σ μ :=
  match _h : turn P S p with
  | .stop => (.ok (), p)
  | .wait => (.pending p.channel.bytes, p.takeCarry)
  | .next p' => execute P S p'
  | .panic e p' => (.panic e, p')
termination_by budget P p
decreasing_by exact (turned_of_next _h).budget_lt

theorem execute_stop {P : Protocol σ μ} {S : SerdeCbor} {p : Party σ μ}
    (h : turn P S p = .stop) : execute P S p = (.ok (), p) := by
  rw [execute]
  split <;> simp_all

theorem execute_wait {P : Protocol σ μ} {S : SerdeCbor} {p : Party σ μ}
    (h : turn P S p = .wait) :
    execute P S p = (.pending p.channel.bytes, p.takeCarry) := by
  rw [execute]
  split <;> simp_all

theorem execute_next {P : Protocol σ μ} {S : SerdeCbor} {p p' : Party σ μ}
    (h : turn P S p = .next p') : execute P S p = execute P S p' := by
  rw [execute]
  split <;> simp_all

theorem execute_panic {P : Protocol σ μ} {S : SerdeCbor} {p p' : Party σ μ} {e : Error}
    (h : turn P S p = .panic e p') : execute P S p = (.panic e, p') := by
  rw [execute]
  split <;> simp_all

/-- **The loop rule.** An invariant `I` that every turn keeps holds wherever
`execute` ends: out of turn, waiting, or in a panic. -/
theorem execute_rule {P : Protocol σ μ} {S : SerdeCbor} (I : Party σ μ → Prop)
    (Q : Exit Unit → Party σ μ → Prop)
    (hstop : ∀ p, I p → P.agency p.proto = .none → Q (.ok ()) p)
    (hwait : ∀ p, I p → P.agency p.proto ≠ .none → P.agency p.proto ≠ P.role p.proto →
      p.channel.receiver = [] → Q (.pending p.channel.bytes) p.takeCarry)
    (hnext : ∀ p p', I p → Turned P S p p' → I p')
    (hpanic : ∀ p e p', I p → Faulted P S p e p' → Q (.panic e) p')
    {p : Party σ μ} (h : I p) : Q (execute P S p).1 (execute P S p).2 := by
  induction p using execute.induct P S with
  | case1 p ht =>
      rw [execute_stop ht]
      exact hstop p h (turn_stop_iff.mp ht)
  | case2 p ht =>
      obtain ⟨hnone, hrole, hq⟩ := turn_wait_iff.mp ht
      rw [execute_wait ht]
      exact hwait p h hnone hrole hq
  | case3 p p' ht ih =>
      rw [execute_next ht]
      exact ih (hnext p p' h (turned_of_next ht))
  | case4 p e p' ht =>
      rw [execute_panic ht]
      exact hpanic p e p' h (faulted_of_panic ht)

/-- Turns of the loop, one after the other. -/
abbrev Turns (P : Protocol σ μ) (S : SerdeCbor) : Party σ μ → Party σ μ → Prop :=
  ReflTransGen fun p p' => turn P S p = .next p'

theorem Turns.execute_eq {P : Protocol σ μ} {S : SerdeCbor} {p p' : Party σ μ}
    (h : Turns P S p p') : execute P S p = execute P S p' := by
  induction h with
  | refl => rfl
  | tail _ ht ih => rw [ih, execute_next ht]

/-- How a call of `execute` ends in the state its turns have led to: out of turn, waiting,
or in a panic. -/
def Ends (P : Protocol σ μ) (S : SerdeCbor) (p : Party σ μ) : Exit Unit → Party σ μ → Prop
  | .ok (), p' => Turns P S p p' ∧ P.agency p'.proto = .none
  | .pending carry, p' => ∃ q, Turns P S p q ∧ turn P S q = .wait ∧ carry = q.channel.bytes ∧
      p' = q.takeCarry
  | .panic e, p' => ∃ q, Turns P S p q ∧ turn P S q = .panic e p'
  | .err _, _ => False

theorem Ends.head {P : Protocol σ μ} {S : SerdeCbor} {p q p' : Party σ μ} {x : Exit Unit}
    (ht : turn P S p = .next q) (h : Ends P S q x p') : Ends P S p x p' := by
  cases x with
  | ok u => exact ⟨h.1.head ht, h.2⟩
  | pending carry =>
      obtain ⟨r, hturns, hr⟩ := h
      exact ⟨r, hturns.head ht, hr⟩
  | panic e =>
      obtain ⟨r, hturns, hr⟩ := h
      exact ⟨r, hturns.head ht, hr⟩
  | err e => exact h

theorem execute_ends (P : Protocol σ μ) (S : SerdeCbor) (p : Party σ μ) :
    Ends P S p (execute P S p).1 (execute P S p).2 := by
  induction p using execute.induct P S with
  | case1 p ht =>
      rw [execute_stop ht]
      exact ⟨.refl, turn_stop_iff.mp ht⟩
  | case2 p ht =>
      rw [execute_wait ht]
      exact ⟨p, .refl, ht, rfl, rfl⟩
  | case3 p p' ht ih =>
      rw [execute_next ht]
      exact ih.head ht
  | case4 p e p' ht =>
      rw [execute_panic ht]
      exact ⟨p, .refl, ht⟩

theorem execute_ok_iff {P : Protocol σ μ} {S : SerdeCbor} {p p' : Party σ μ} :
    execute P S p = (.ok (), p') ↔ Turns P S p p' ∧ turn P S p' = .stop := by
  constructor
  · intro h
    have hends := execute_ends P S p
    rw [h] at hends
    exact ⟨hends.1, turn_stop_iff.mpr hends.2⟩
  · rintro ⟨hturns, hstop⟩
    rw [hturns.execute_eq, execute_stop hstop]

/-- Nothing in the loop returns an `Err`: what fails there is unwrapped. -/
theorem execute_ne_err (P : Protocol σ μ) (S : SerdeCbor) (p : Party σ μ) (e : Error) :
    (execute P S p).1 ≠ .err e :=
  execute_rule (fun _ => True) (fun x _ => x ≠ .err e) (by simp) (by simp) (by simp) (by simp)
    trivial

/-- A public call: set the protocol value up, run `execute`, and on `Ok` compute
the result. -/
def call {α : Type} (P : Protocol σ μ) (S : SerdeCbor) (setup : σ → σ)
    (finish : σ → Outcome α × σ) (p : Party σ μ) : Exit α × Party σ μ :=
  match execute P S { p with proto := setup p.proto } with
  | (.ok (), p') =>
    match finish p'.proto with
    | (.ok a, s) => (.ok a, { p' with proto := s })
    | (.err e, s) => (.err e, { p' with proto := s })
    | (.panic e, s) => (.panic e, { p' with proto := s })
  | (.err e, p') => (.err e, p')
  | (.panic e, p') => (.panic e, p')
  | (.pending carry, p') => (.pending carry, p')

section

variable {α : Type} {P : Protocol σ μ} {S : SerdeCbor} {setup : σ → σ} {finish : σ → Outcome α × σ}
  {p p' : Party σ μ}

/-- A call that returns. -/
theorem call_ok_iff {a : α} : p.call P S setup finish = (.ok a, p') ↔
    ∃ q s, execute P S { p with proto := setup p.proto } = (.ok (), q) ∧
      finish q.proto = (.ok a, s) ∧ p' = { q with proto := s } := by
  rw [call]
  constructor
  · intro h
    rcases hexecute : execute P S { p with proto := setup p.proto } with ⟨x, q⟩
    rw [hexecute] at h
    cases x with
    | ok u =>
        rcases hfinish : finish q.proto with ⟨r, s⟩
        simp only [hfinish] at h
        cases r <;> cases h
        exact ⟨q, s, rfl, hfinish, rfl⟩
    | _ => cases h
  · rintro ⟨q, s, hexecute, hfinish, rfl⟩
    simp only [hexecute, hfinish]

/-- A call that waits. -/
theorem call_pending {bytes : Bytes} (h : p.call P S setup finish = (.pending bytes, p')) :
    execute P S { p with proto := setup p.proto } = (.pending bytes, p') := by
  rw [call] at h
  rcases hexecute : execute P S { p with proto := setup p.proto } with ⟨x, q⟩
  rw [hexecute] at h
  cases x with
  | ok u =>
      rcases hfinish : finish q.proto with ⟨r, s⟩
      simp only [hfinish] at h
      cases r <;> cases h
  | pending carry =>
      cases h
      rfl
  | err e => cases h
  | panic e => cases h

end

end Party

end Ouroboros
