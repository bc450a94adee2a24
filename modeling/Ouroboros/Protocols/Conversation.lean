import Ouroboros.Protocols.Reassembly

/-!
Conversations with a peer that keeps to the protocol.

The peer's side of a conversation is the list of messages it still has to
deliver. `Protocol.Follows` says that a protocol value can always take the next
of them, and that it is never left waiting for one more. From these conditions
on single messages `Protocol.Follows.execute` concludes how a whole call goes,
for every segmentation of the bytes.

The payloads of an answer are put into the queue at the start of a call. They
may as well arrive while the call waits (`Party.execute_resume`).
-/

namespace Ouroboros

open Streaming

variable {σ μ : Type} {P : Protocol σ μ} {S : SerdeCbor}

namespace Party

/-- The demultiplexer queues more payloads. -/
def arrive (payloads : List Bytes) (p : Party σ μ) : Party σ μ :=
  { p with channel := { p.channel with receiver := p.channel.receiver ++ payloads } }

/-- A waiting call gets its carry back when a payload arrives. -/
def restoreCarry (carry : Bytes) (p : Party σ μ) : Party σ μ :=
  { p with channel := { p.channel with bytes := carry } }

theorem turn_arrive {p p' : Party σ μ} (h : turn P S p = .next p') (payloads : List Bytes) :
    turn P S (p.arrive payloads) = .next (p'.arrive payloads) := by
  have hturned := turned_of_next h
  cases hturned with
  | send hnone hrole hsend hdata => exact turn_send_ok hnone hrole hsend hdata
  | @recv q qs ms tail s hnone hrole hq hfeed hdeliver htail =>
      have hq' : (p.arrive payloads).channel.receiver = q :: (qs ++ payloads) := by
        simp [arrive, hq]
      exact turn_recv_ok hnone hrole hq' hfeed hdeliver htail

/-- Payloads that arrive while a call waits might have been queued at its
start. -/
theorem execute_resume {p p' : Party σ μ} {carry : Bytes}
    (h : execute P S p = (.pending carry, p')) (payloads : List Bytes) :
    execute P S (p.arrive payloads) = execute P S ((p'.restoreCarry carry).arrive payloads) := by
  induction p using execute.induct P S with
  | case1 p ht =>
      rw [execute_stop ht] at h
      cases h
  | case2 p ht =>
      rw [execute_wait ht] at h
      cases h
      rfl
  | case3 p q ht ih =>
      rw [execute_next ht] at h
      rw [execute_next (turn_arrive ht payloads)]
      exact ih h
  | case4 p e q ht =>
      rw [execute_panic ht] at h
      cases h

/-- The peer still has to deliver the messages `todo`, and nothing else. -/
def Awaits (P : Protocol σ μ) (S : SerdeCbor) (todo : List (μ × Bytes)) (p : Party σ μ) : Prop :=
  ∃ before es, Fed P S before es [] todo p

/-- At the start of an answer nothing is carried over or queued. -/
theorem awaits_arrive {todo : List (μ × Bytes)} (hne : todo ≠ [])
    (htodo : ∀ e ∈ todo, P.Encoded S e.1 e.2) {p : Party σ μ} (hbytes : p.channel.bytes = [])
    (hreceiver : p.channel.receiver = []) {payloads : List Bytes}
    (hpayloads : payloads.flatten = todo.flatMap Prod.snd) :
    Awaits P S todo (p.arrive payloads) := by
  have hpartial : (P.decoder S).Partial [] := by
    obtain ⟨e, es, rfl⟩ := List.exists_cons_of_ne_nil hne
    exact ((htodo e List.mem_cons_self).codeword).partial_nil
  refine ⟨p.handed, todo, ⟨[], rfl, ?_⟩, ?_, hpartial, Protocol.coded_of_encoded htodo, ?_⟩
  · simp [handed, arrive]
  · simpa [arrive, hbytes] using hpartial
  · simp [arrive, hbytes, hreceiver, hpayloads]

/-- When everything has been delivered nothing is left over. -/
theorem Awaits.clean {p : Party σ μ} (h : Awaits P S [] p)
    (hne : ∀ q ∈ p.channel.receiver, q ≠ []) :
    p.channel.bytes = [] ∧ p.channel.receiver = [] := by
  obtain ⟨before, es, h⟩ := h
  have heq : p.channel.bytes ++ p.channel.receiver.flatten = [] := by
    simpa using h.pending.eq
  obtain ⟨hbytes, hflatten⟩ := List.append_eq_nil_iff.mp heq
  refine ⟨hbytes, List.eq_nil_iff_forall_not_mem.mpr fun q hq => hne q hq ?_⟩
  exact List.flatten_eq_nil_iff.mp hflatten q hq

end Party

/-- `A ms s sent` holds of a protocol value `s` that has sent `sent` and that the
peer will deliver `ms` to. Such a value can send when it is its turn, it takes
the next message of `ms`, and when there is none it does not wait. -/
structure Protocol.Follows (P : Protocol σ μ) (S : SerdeCbor)
    (A : List μ → σ → List Bytes → Prop) : Prop where
  send : ∀ {ms s sent}, A ms s sent → P.agency s ≠ .none → P.agency s = P.role s →
    ∃ m s' data, P.send s = (.ok m, s') ∧ P.toBytes S m = .ok data ∧ A ms s' (sent ++ [data])
  recv : ∀ {m ms s sent}, A (m :: ms) s sent → P.agency s ≠ P.role s →
    ∃ s', P.recv s m = (.ok (), s') ∧ A ms s' sent ∧ (ms = [] ∨ P.agency s' ≠ P.role s')
  rest : ∀ {s sent}, A [] s sent → P.agency s = .none ∨ P.agency s = P.role s

namespace Protocol.Follows

variable {A : List μ → σ → List Bytes → Prop}

/-- Several messages of one payload. -/
theorem deliver (h : P.Follows S A) {done todo : List μ} {s : σ} {sent : List Bytes}
    (hA : A (done ++ todo) s sent) (hrole : P.agency s ≠ P.role s) :
    ∃ s', P.deliver done s = (.ok (), s') ∧ A todo s' sent := by
  induction done generalizing s with
  | nil => exact ⟨s, rfl, hA⟩
  | cons m done ih =>
      obtain ⟨t, hrecv, hA', hnext⟩ := h.recv hA hrole
      rw [deliver_cons_ok hrecv]
      rcases hnext with hnil | hrole'
      · obtain ⟨rfl, rfl⟩ := List.append_eq_nil_iff.mp hnil
        exact ⟨t, rfl, hA'⟩
      · exact ih hA' hrole'

/-- The invariant of the loop in a call that began with `p`: the messages `todo` are
still to come, and the queue has only been read from. -/
structure Underway (P : Protocol σ μ) (S : SerdeCbor) (A : List μ → σ → List Bytes → Prop)
    (before : List μ) (es : List (μ × Bytes)) (p : Party σ μ) (todo : List (μ × Bytes))
    (q : Party σ μ) : Prop where
  fed : Party.Fed P S before es [] todo q
  follows : A (todo.map Prod.fst) q.proto q.channel.sent
  queue : q.channel.receiver <:+ p.channel.receiver
  idx : q.channel.idx = p.channel.idx

variable {before : List μ} {es todo : List (μ × Bytes)} {p q q' : Party σ μ}

/-- The step lemma of the loop. -/
theorem Underway.turned (h : P.Follows S A) (hq : Underway P S A before es p todo q)
    (hturned : Party.Turned P S q q') : ∃ todo', Underway P S A before es p todo' q' := by
  obtain ⟨hfed, hA, hsuffix, hidx⟩ := hq
  cases hturned with
  | send hnone hrole hsend hdata =>
      obtain ⟨m', s', data', hsend', hdata', hA'⟩ := h.send hA hnone hrole
      obtain ⟨hm, rfl⟩ := Prod.mk.inj (hsend.symm.trans hsend')
      obtain rfl := Outcome.ok.inj hm
      obtain rfl := Outcome.ok.inj (hdata.symm.trans hdata')
      exact ⟨todo, hfed.afterSend _ _ _, hA', hsuffix, hidx⟩
  | recv hnone hrole hreceiver hfeed hdeliver _ =>
      obtain ⟨done, rest, carry, rfl, hfeed', hcarry, hpending⟩ := hfed.feed hreceiver
      obtain ⟨rfl, rfl⟩ := Prod.mk.inj (hfeed.symm.trans hfeed')
      rw [List.map_append] at hA
      obtain ⟨s', hdeliver', hA'⟩ := h.deliver hA hrole
      rw [Tail.carry_ofCarry]
      refine ⟨rest, hfed.afterRecv rfl hcarry hpending hdeliver', ?_, ?_, hidx⟩
      · simpa only [Party.afterRecv, Party.delivered, hdeliver'] using hA'
      · rw [hreceiver] at hsuffix
        exact (List.suffix_cons _ _).trans hsuffix

theorem Underway.not_faulted (h : P.Follows S A) (hq : Underway P S A before es p todo q)
    {e : Error} : ¬ Party.Faulted P S q e q' := by
  intro hfault
  obtain ⟨hfed, hA, -, -⟩ := hq
  cases hfault with
  | send hnone hrole hsend hpanic =>
      obtain ⟨m', s', data', hsend', hdata', -⟩ := h.send hA hnone hrole
      obtain ⟨rfl, -⟩ := Prod.mk.inj (hsend.symm.trans hsend')
      simp [hdata'] at hpanic
  | recv hnone hrole hreceiver hfeed hpanic =>
      obtain ⟨done, rest, carry, rfl, hfeed', -, -⟩ := hfed.feed hreceiver
      obtain ⟨rfl, rfl⟩ := Prod.mk.inj (hfeed.symm.trans hfeed')
      rw [List.map_append] at hA
      obtain ⟨s', hdeliver', -⟩ := h.deliver hA hrole
      rcases hpanic with hpanic | ⟨-, htail⟩
      · rw [hdeliver'] at hpanic
        cases hpanic
      · cases carry <;> cases htail

/-- A call of `execute` comes to an end out of turn, and the messages it has not
read are still to be delivered. -/
theorem execute (h : P.Follows S A) {todo : List (μ × Bytes)} {p : Party σ μ}
    (hp : Party.Awaits P S todo p) (hA : A (todo.map Prod.fst) p.proto p.channel.sent) :
    ∃ todo' p', Party.execute P S p = (.ok (), p') ∧ P.agency p'.proto = .none ∧
      Party.Awaits P S todo' p' ∧ A (todo'.map Prod.fst) p'.proto p'.channel.sent ∧
      p'.channel.receiver <:+ p.channel.receiver ∧ p'.channel.idx = p.channel.idx := by
  obtain ⟨before, es, hfed⟩ := hp
  have hrun : (Party.execute P S p).1 = .ok () ∧
      P.agency (Party.execute P S p).2.proto = .none ∧
      ∃ todo', Underway P S A before es p todo' (Party.execute P S p).2 := by
    apply Party.execute_rule (fun q => ∃ todo', Underway P S A before es p todo' q)
      (fun x q => x = .ok () ∧ P.agency q.proto = .none ∧
        ∃ todo', Underway P S A before es p todo' q)
    case hstop =>
      intro q hq hnone
      exact ⟨rfl, hnone, hq⟩
    case hwait =>
      rintro q ⟨todo', hfed, hA, -, -⟩ hnone hrole hreceiver
      obtain ⟨rfl, -⟩ := hfed.exhausted hreceiver
      rcases h.rest hA with hstop | hturn
      · exact absurd hstop hnone
      · exact absurd hturn hrole
    case hnext =>
      rintro q q' ⟨todo', hq⟩ hturned
      exact hq.turned h hturned
    case hpanic =>
      rintro q e q' ⟨todo', hq⟩ hfault
      exact absurd hfault (hq.not_faulted h)
    case h => exact ⟨todo, hfed, hA, List.suffix_refl _, rfl⟩
  obtain ⟨hok, hnone, todo', hfed', hA', hsuffix, hidx⟩ := hrun
  exact ⟨todo', _, Prod.ext hok rfl, hnone, ⟨before, es, hfed'⟩, hA', hsuffix, hidx⟩

end Protocol.Follows

end Ouroboros
