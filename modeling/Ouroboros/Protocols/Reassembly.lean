import Ouroboros.Protocols.ChainsyncCodec
import Ouroboros.SerdeCbor.Codec

/-!
Reassembly of messages from payloads.

An encoded message is a codeword of the party's decoder, so the library's
account of segmented streams applies to every call of `execute`: whatever the
payloads are, what `recv` is handed depends on the concatenated bytes alone.
`Party.absorbAll` is the carry discipline by itself, payload after payload.
`Fed` is the invariant of the loop. It links the messages already handed over,
the carry and the queue, and it does not mention the protocol state, so it also
survives whatever the caller does to that state between two calls.
-/

namespace Ouroboros

open Streaming

variable {σ μ : Type}

theorem Protocol.coded_of_encoded {P : Protocol σ μ} {S : SerdeCbor} {es : List (μ × Bytes)}
    (h : ∀ e ∈ es, P.Encoded S e.1 e.2) : (P.decoder S).Coded es :=
  fun e he => (h e he).codeword

theorem Protocol.feed_whole {P : Protocol σ μ} {S : SerdeCbor} {es : List (μ × Bytes)}
    (hes : ∀ e ∈ es, P.Encoded S e.1 e.2) :
    (P.decoder S).feed [] (es.flatMap Prod.snd) = (es.map Prod.fst, .done) := by
  rw [Decoder.feed, List.nil_append, (Protocol.coded_of_encoded hes).parse]

/-- A payload of whole messages. -/
theorem Party.turn_recv_whole {P : Protocol σ μ} {S : SerdeCbor} {es : List (μ × Bytes)}
    (hes : ∀ e ∈ es, P.Encoded S e.1 e.2) {p : Party σ μ} {qs : List Bytes} {s : σ}
    (hnone : P.agency p.proto ≠ .none) (hrole : P.agency p.proto ≠ P.role p.proto)
    (hbytes : p.channel.bytes = []) (hq : p.channel.receiver = es.flatMap Prod.snd :: qs)
    (hdeliver : P.deliver (es.map Prod.fst) p.proto = (.ok (), s)) :
    Party.turn P S p = .next (p.afterRecv P (es.map Prod.fst) qs []) := by
  have hfeed : (P.decoder S).feed p.channel.bytes (es.flatMap Prod.snd) =
      (es.map Prod.fst, .done) := by
    rw [hbytes, Protocol.feed_whole hes]
  exact Party.turn_recv_ok hnone hrole hq hfeed hdeliver (by simp)

/-! ### What the log says of a run -/

/-- The message of a log entry, if it is one of `send`. -/
def Event.told : Event σ μ → Option μ
  | .tx message => some message
  | .rx _ _ _ _ => none

/-- The message of a log entry, if it is one of `recv`. -/
def Event.handed : Event σ μ → Option μ
  | .tx _ => none
  | .rx _ message _ _ => some message

/-- A call of `recv` that did not return `Ok`. -/
def Event.Rejects : Event σ μ → Prop
  | .tx _ => False
  | .rx _ _ result _ => result ≠ .ok ()

theorem Protocol.handed_deliveries {P : Protocol σ μ} {ms : List μ} {s s' : σ}
    (h : P.deliver ms s = (.ok (), s')) : (P.deliveries ms s).filterMap Event.handed = ms := by
  induction ms generalizing s with
  | nil => rfl
  | cons m ms ih =>
      cases hm : P.recv s m with
      | mk r t =>
          cases r with
          | ok u =>
              rw [Protocol.deliver_cons_ok hm] at h
              rw [Protocol.deliveries_cons_ok hm]
              simp [Event.handed, ih h]
          | err e => simp [Protocol.deliver, hm] at h
          | panic e => simp [Protocol.deliver, hm] at h

/-- The message that is rejected is handed over as well. -/
theorem Protocol.handed_rejected {P : Protocol σ μ} {ms : List μ} {m : μ} {s s' : σ}
    (h : P.deliver ms s = (.ok (), s')) (hm : (P.recv s' m).1 ≠ .ok ()) :
    (P.deliveries (ms ++ [m]) s).filterMap Event.handed = ms ++ [m] := by
  rw [Protocol.deliveries_append h, Protocol.deliveries_cons_rejected hm, List.filterMap_append,
    Protocol.handed_deliveries h]
  rfl

/-- What is kept for the next payload. A call that waits has it in a local variable. -/
def Exit.carry : Exit Unit → Party σ μ → Bytes
  | .pending bytes, _ => bytes
  | _, p => p.channel.bytes

namespace Party

/-- The messages handed to `recv`, oldest first. -/
def handed (p : Party σ μ) : List μ := p.log.filterMap Event.handed

@[simp] theorem handed_afterSend (p : Party σ μ) (s : σ) (m : μ) (data : Bytes) :
    (p.afterSend s m data).handed = p.handed := by
  simp [handed, afterSend, Event.handed]

theorem handed_afterRecv (P : Protocol σ μ) (p : Party σ μ) (ms : List μ) (qs : List Bytes)
    (carry : Bytes) :
    (p.afterRecv P ms qs carry).handed =
      p.handed ++ (P.deliveries ms p.proto).filterMap Event.handed := by
  simp [handed, afterRecv, delivered]

/-- The party holds the turn, and what it would send cannot be written. -/
def CannotSend (P : Protocol σ μ) (S : SerdeCbor) (p : Party σ μ) : Prop :=
  P.agency p.proto ≠ .none ∧ P.agency p.proto = P.role p.proto ∧
    ∀ data, (P.send p.proto).1 >>= P.toBytes S ≠ .ok data

/-- The party `q` waits for the peer, and of the payload it reads next `recv` accepts the
messages `ms` and rejects `m`. -/
def Rejects (P : Protocol σ μ) (q p' : Party σ μ) : Prop :=
  P.agency q.proto ≠ .none ∧ P.agency q.proto ≠ P.role q.proto ∧
    ∃ ms m s, P.deliver ms q.proto = (.ok (), s) ∧ (P.recv s m).1 ≠ .ok () ∧
      p'.log = q.log ++ P.deliveries (ms ++ [m]) q.proto

/-- Since the party was `p` every call of `recv` has returned `Ok`. -/
def Accepted (p p' : Party σ μ) : Prop := ∀ ev ∈ p'.log.drop p.log.length, ¬ ev.Rejects

theorem Rejects.not_accepted {P : Protocol σ μ} {p q p' : Party σ μ} (h : q.Rejects P p')
    (hlog : p.log <+: q.log) : ¬ Accepted p p' := by
  intro haccepted
  obtain ⟨-, -, ms, m, s, hms, hm, hp'⟩ := h
  obtain ⟨past, hpast⟩ := hlog
  refine haccepted (.rx s m (P.recv s m).1 (P.recv s m).2) ?_ hm
  rw [hp', ← hpast, List.append_assoc, List.drop_left, Protocol.deliveries_append hms,
    Protocol.deliveries_cons_rejected hm]
  simp

theorem Turned.log {P : Protocol σ μ} {S : SerdeCbor} {p p' : Party σ μ} (h : Turned P S p p') :
    p.log <+: p'.log := by
  cases h <;> exact List.prefix_append _ _

theorem Turns.log {P : Protocol σ μ} {S : SerdeCbor} {p p' : Party σ μ} (h : Turns P S p p') :
    p.log <+: p'.log := by
  induction h with
  | refl => exact List.prefix_refl _
  | tail _ ht ih => exact ih.trans (turned_of_next ht).log

/-! ### The invariant of the loop -/

/-- The messages `es` and then the incomplete message `rest` are fed to the
party, which has `todo` of them before it. -/
structure Fed (P : Protocol σ μ) (S : SerdeCbor) (before : List μ) (es : List (μ × Bytes))
    (rest : Bytes) (todo : List (μ × Bytes)) (p : Party σ μ) : Prop where
  handed : ∃ done, es = done ++ todo ∧ p.handed = before ++ done.map Prod.fst
  carry : (P.decoder S).Partial p.channel.bytes
  pending : (P.decoder S).Pending todo rest (p.channel.bytes ++ p.channel.receiver.flatten)

variable {P : Protocol σ μ} {S : SerdeCbor} {before : List μ} {es todo : List (μ × Bytes)}
  {rest : Bytes} {p p' : Party σ μ}

/-- What is fed to a party does not depend on how it is cut. -/
theorem Fed.congr (h : Fed P S before es rest todo p) (hhanded : p'.handed = p.handed)
    (hbytes : p'.channel.bytes = p.channel.bytes)
    (hflatten : p'.channel.receiver.flatten = p.channel.receiver.flatten) :
    Fed P S before es rest todo p' where
  handed := by
    rw [hhanded]
    exact h.handed
  carry := by
    rw [hbytes]
    exact h.carry
  pending := by
    rw [hbytes, hflatten]
    exact h.pending

theorem Fed.afterSend (h : Fed P S before es rest todo p) (s : σ) (m : μ) (data : Bytes) :
    Fed P S before es rest todo (p.afterSend s m data) where
  handed := by simpa using h.handed
  carry := h.carry
  pending := h.pending

/-- The next payload completes some messages of `todo`. -/
theorem Fed.feed (h : Fed P S before es rest todo p) {q : Bytes} {qs : List Bytes}
    (hq : p.channel.receiver = q :: qs) :
    ∃ done todo' carry, todo = done ++ todo' ∧
      (P.decoder S).feed p.channel.bytes q = (done.map Prod.fst, .ofCarry carry) ∧
      (P.decoder S).Partial carry ∧ (P.decoder S).Pending todo' rest (carry ++ qs.flatten) := by
  have hpending := h.pending
  rw [hq, List.flatten_cons] at hpending
  exact hpending.feed

theorem Fed.afterRecv (h : Fed P S before es rest todo p) {qs : List Bytes} {s : σ}
    {done todo' : List (μ × Bytes)} {carry : Bytes} (htodo : todo = done ++ todo')
    (hcarry : (P.decoder S).Partial carry)
    (hpending : (P.decoder S).Pending todo' rest (carry ++ qs.flatten))
    (hdeliver : P.deliver (done.map Prod.fst) p.proto = (.ok (), s)) :
    Fed P S before es rest todo' (p.afterRecv P (done.map Prod.fst) qs carry) where
  handed := by
    obtain ⟨past, hpast, hhanded⟩ := h.handed
    refine ⟨past ++ done, by rw [hpast, htodo, List.append_assoc], ?_⟩
    rw [handed_afterRecv, Protocol.handed_deliveries hdeliver, hhanded, List.map_append,
      List.append_assoc]
  carry := hcarry
  pending := hpending

theorem Fed.turned (h : Fed P S before es rest todo p) (ht : Turned P S p p') :
    ∃ todo', Fed P S before es rest todo' p' := by
  cases ht with
  | send _ _ _ _ => exact ⟨todo, h.afterSend _ _ _⟩
  | recv _ _ hq hfeed hdeliver _ =>
      obtain ⟨done, todo', carry, htodo, hfeed', hcarry, hpending⟩ := h.feed hq
      rw [hfeed'] at hfeed
      cases hfeed
      rw [Tail.carry_ofCarry]
      exact ⟨todo', h.afterRecv htodo hcarry hpending hdeliver⟩

/-- While the party waits with an empty queue everything has been handed over. -/
theorem Fed.exhausted (h : Fed P S before es rest todo p) (hq : p.channel.receiver = []) :
    todo = [] ∧ p.channel.bytes = rest := by
  have hpending := h.pending
  rw [hq, List.flatten_nil, List.append_nil] at hpending
  exact hpending.eq_of_partial h.carry

/-- A message of the payload is rejected. -/
theorem Fed.rejects (h : Fed P S before es rest todo p) {qs : List Bytes} {e : Error}
    {done todo' : List (μ × Bytes)} (hnone : P.agency p.proto ≠ .none)
    (hrole : P.agency p.proto ≠ P.role p.proto) (htodo : todo = done ++ todo')
    (hpanic : (P.deliver (done.map Prod.fst) p.proto).1 = .panic e) :
    p.Rejects P (p.afterRecv P (done.map Prod.fst) qs []) ∧
      ∃ done' todo'', es = done' ++ todo'' ∧
        (p.afterRecv P (done.map Prod.fst) qs []).handed = before ++ done'.map Prod.fst := by
  obtain ⟨past, hpast, hhanded⟩ := h.handed
  obtain ⟨ms, m, ns, s, hsplit, hms, hm⟩ := Protocol.exists_rejected hpanic
  have hlog : P.deliveries (done.map Prod.fst) p.proto = P.deliveries (ms ++ [m]) p.proto := by
    rw [hsplit, Protocol.deliveries_append hms, Protocol.deliveries_append hms,
      Protocol.deliveries_cons_rejected hm, Protocol.deliveries_cons_rejected hm]
  refine ⟨⟨hnone, hrole, ms, m, s, hms, hm, congrArg (p.log ++ ·) hlog⟩, ?_⟩
  rw [← List.singleton_append, ← List.append_assoc] at hsplit
  obtain ⟨done₁, done₂, rfl, hdone₁, -⟩ := List.map_eq_append_iff.mp hsplit
  refine ⟨past ++ done₁, done₂ ++ todo', ?_, ?_⟩
  · rw [hpast, htodo, List.append_assoc, List.append_assoc]
  · rw [handed_afterRecv, hlog, Protocol.handed_rejected hms hm, hhanded, List.map_append,
      hdone₁, List.append_assoc]

/-- A payload of the stream is no cause for a panic of its own. -/
theorem Fed.faulted (h : Fed P S before es rest todo p) {e : Error} (hf : Faulted P S p e p') :
    (p.CannotSend P S ∧ Fed P S before es rest todo p') ∨
      (p.Rejects P p' ∧
        ∃ done todo', es = done ++ todo' ∧ p'.handed = before ++ done.map Prod.fst) := by
  cases hf with
  | @send r s e hnone hrole hsend hpanic =>
      refine .inl ⟨⟨hnone, hrole, fun data hdata => ?_⟩, h.congr ?_ rfl rfl⟩
      · rw [hsend] at hdata
        rw [hdata] at hpanic
        cases hpanic
      · cases r <;> simp [Party.handed, Event.handed]
  | @recv q qs ms tail e hnone hrole hq hfeed hpanic =>
      obtain ⟨done, todo', carry, htodo, hfeed', -, -⟩ := h.feed hq
      rw [hfeed'] at hfeed
      cases hfeed
      rcases hpanic with hpanic | ⟨-, htail⟩
      · exact .inr (h.rejects hnone hrole htodo hpanic)
      · cases carry <;> cases htail

theorem Fed.turns (h : Fed P S before es rest todo p) (hturns : Turns P S p p') :
    ∃ todo', Fed P S before es rest todo' p' := by
  induction hturns with
  | refl => exact ⟨todo, h⟩
  | tail _ ht ih =>
      obtain ⟨todo', h'⟩ := ih
      exact h'.turned (turned_of_next ht)

/-- A party that waits for the next message reads on until a payload completes it. -/
theorem Fed.opening {e : μ × Bytes} (h : Fed P S before es rest (e :: todo) p)
    (hnone : P.agency p.proto ≠ .none) (hrole : P.agency p.proto ≠ P.role p.proto) :
    ∃ p' q qs done todo' carry, todo = done ++ todo' ∧ execute P S p = execute P S p' ∧
      p'.proto = p.proto ∧ p'.channel.receiver = q :: qs ∧
      (P.decoder S).feed p'.channel.bytes q = (e.1 :: done.map Prod.fst, .ofCarry carry) := by
  induction hreceiver : p.channel.receiver generalizing p with
  | nil => cases (h.exhausted hreceiver).1
  | cons q qs ih =>
      obtain ⟨done, todo', carry, htodo, hfeed, hcarry, hpending⟩ := h.feed hreceiver
      cases done with
      | nil =>
          have hturn := turn_recv_ok (s := p.proto) hnone hrole hreceiver hfeed rfl
            (by cases carry <;> simp [Tail.ofCarry])
          rw [Tail.carry_ofCarry] at hturn
          have hfed := h.afterRecv (s := p.proto) htodo hcarry hpending rfl
          rw [execute_next hturn]
          exact ih (htodo ▸ hfed) hnone hrole rfl
      | cons e' done =>
          obtain ⟨rfl, rfl⟩ := List.cons.inj htodo
          exact ⟨p, q, qs, done, todo', carry, rfl, rfl, rfl, hreceiver, hfeed⟩

/-- Nothing is lost and nothing is held back: what has been handed over, the carry and the
queue make up the stream, and the carry is no more than the start of a message. -/
structure Keeps (P : Protocol σ μ) (S : SerdeCbor) (before : List μ) (es : List (μ × Bytes))
    (rest : Bytes) (p : Party σ μ) (carry : Bytes) : Prop where
  stream : ∃ done todo, es = done ++ todo ∧ p.handed = before ++ done.map Prod.fst ∧
    carry ++ p.channel.receiver.flatten = todo.flatMap Prod.snd ++ rest
  begun : (P.decoder S).parse carry = ([], .ofCarry carry)
  all : p.channel.receiver = [] → p.handed = before ++ es.map Prod.fst ∧ carry = rest

theorem Fed.keeps (h : Fed P S before es rest todo p) :
    Keeps P S before es rest p p.channel.bytes where
  stream := by
    obtain ⟨done, hes, hhanded⟩ := h.handed
    exact ⟨done, todo, hes, hhanded, h.pending.eq⟩
  begun := h.carry.parse
  all hq := by
    obtain ⟨rfl, hbytes⟩ := h.exhausted hq
    obtain ⟨done, hes, hhanded⟩ := h.handed
    rw [List.append_nil] at hes
    rw [hes]
    exact ⟨hhanded, hbytes⟩

/-- A call of `execute` on `c` while the messages `es` and then `rest` are fed to a party that
has been `p`. It ends out of turn, waiting, or in a panic, and this is because `recv` rejects
a message or because the party cannot send in the state it has come to. -/
structure Reassembles (P : Protocol σ μ) (S : SerdeCbor) (es : List (μ × Bytes)) (rest : Bytes)
    (p c : Party σ μ) (r : Exit Unit × Party σ μ) : Prop where
  order : ∃ done todo, es = done ++ todo ∧ r.2.handed = p.handed ++ done.map Prod.fst
  ends : Ends P S c r.1 r.2
  panics : ∀ e, r.1 = .panic e → ∃ q, Turns P S c q ∧ turn P S q = .panic e r.2 ∧
    (q.CannotSend P S ∨ q.Rejects P r.2)
  keeps : Accepted p r.2 → Keeps P S p.handed es rest r.2 (r.1.carry r.2)

theorem Keeps.order {carry : Bytes} (h : Keeps P S before es rest p carry) :
    ∃ done todo, es = done ++ todo ∧ p.handed = before ++ done.map Prod.fst := by
  obtain ⟨done, todo, hes, hhanded, -⟩ := h.stream
  exact ⟨done, todo, hes, hhanded⟩

theorem Fed.execute {c : Party σ μ} (h : Fed P S p.handed es rest todo c)
    (hlog : p.log <+: c.log) :
    Reassembles P S es rest p c (execute P S c) := by
  have hends := execute_ends P S c
  generalize Party.execute P S c = r at hends ⊢
  obtain ⟨x, p'⟩ := r
  cases x with
  | ok u =>
      obtain ⟨todo', h'⟩ := h.turns hends.1
      refine ⟨h'.keeps.order, hends, fun _ heq => ?_, fun _ => h'.keeps⟩
      cases heq
  | pending carry =>
      obtain ⟨q, hturns, hwait, rfl, rfl⟩ := hends
      obtain ⟨todo', h'⟩ := h.turns hturns
      have hkeeps : Keeps P S p.handed es rest q.takeCarry q.channel.bytes :=
        ⟨h'.keeps.stream, h'.keeps.begun, h'.keeps.all⟩
      refine ⟨hkeeps.order, ⟨q, hturns, hwait, rfl, rfl⟩, fun _ heq => ?_, fun _ => hkeeps⟩
      cases heq
  | panic e =>
      obtain ⟨q, hturns, hpanic⟩ := hends
      obtain ⟨todo', h'⟩ := h.turns hturns
      rcases h'.faulted (faulted_of_panic hpanic) with ⟨hcannot, h''⟩ | ⟨hrejects, horder⟩
      · refine ⟨h''.keeps.order, ⟨q, hturns, hpanic⟩, fun e' heq => ?_, fun _ => h''.keeps⟩
        cases heq
        exact ⟨q, hturns, hpanic, .inl hcannot⟩
      · refine ⟨horder, ⟨q, hturns, hpanic⟩, fun e' heq => ?_, fun haccepted => ?_⟩
        · cases heq
          exact ⟨q, hturns, hpanic, .inr hrejects⟩
        · exact absurd haccepted (hrejects.not_accepted (hlog.trans hturns.log))
  | err e => exact hends.elim

/-- Successive calls of `execute` that return. Before each of them the caller does something
to the protocol value, but not to its channel. -/
def calls (P : Protocol σ μ) (S : SerdeCbor) : List (σ → σ) → Party σ μ → Exit Unit × Party σ μ
  | [], p => (.ok (), p)
  | f :: fs, p =>
    match execute P S { p with proto := f p.proto } with
    | (.ok (), p') => calls P S fs p'
    | (.err e, p') => (.err e, p')
    | (.panic e, p') => (.panic e, p')
    | (.pending carry, p') => (.pending carry, p')

/-- What a caller does to the protocol value between two calls. -/
theorem Fed.setup (h : Fed P S before es rest todo p) (s : σ) :
    Fed P S before es rest todo { p with proto := s } :=
  ⟨h.handed, h.carry, h.pending⟩

theorem Fed.calls {fs : List (σ → σ)} {q : Party σ μ} (h : Fed P S before es rest todo p)
    (hcalls : calls P S fs p = (.ok (), q)) :
    (∃ todo', Fed P S before es rest todo' q) ∧ p.log <+: q.log := by
  induction fs generalizing p todo with
  | nil =>
      cases hcalls
      exact ⟨⟨todo, h⟩, List.prefix_refl _⟩
  | cons f fs ih =>
      rw [Party.calls] at hcalls
      rcases hx : Party.execute P S { p with proto := f p.proto } with ⟨x, p'⟩
      rw [hx] at hcalls
      cases x with
      | ok u =>
          obtain ⟨hturns, -⟩ := execute_ok_iff.mp hx
          obtain ⟨todo', h'⟩ := (h.setup (f p.proto)).turns hturns
          obtain ⟨hfed, hlog⟩ := ih h' hcalls
          exact ⟨hfed, hturns.log.trans hlog⟩
      | _ => cases hcalls

/-! ### Payload after payload -/

end Party

end Ouroboros
