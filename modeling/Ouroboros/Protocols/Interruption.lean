import Ouroboros.Library.Transition
import Ouroboros.Protocols.Session

/-!
Calls that are dropped while they wait for a payload.

The carry is moved to a local variable before the wait, and goes with the future.
So the bytes that have been received and not decoded outlive an interruption
exactly if there are none: if the payloads taken so far end between two messages.
A repeated call is then where the interrupted one was.
-/

namespace Ouroboros

open Streaming

variable {σ μ : Type} {P : Protocol σ μ} {S : SerdeCbor} {api : Api σ}

namespace Session

variable {before : List μ} {s s' : Session σ μ} {a : Action}

/-- What has been handed to `recv`, and what is kept for the next payload, is what one
reading of all the bytes taken from the queue comes to. -/
def Kept (P : Protocol σ μ) (S : SerdeCbor) (before : List μ) (s : Session σ μ) : Prop :=
  ∃ ms, (P.decoder S).parse s.taken = (ms, .ofCarry s.carry) ∧ s.party.handed = before ++ ms

/-- The bytes that have been taken end between two messages. -/
def Between (P : Protocol σ μ) (S : SerdeCbor) (s : Session σ μ) : Prop :=
  ((P.decoder S).parse s.taken).2 = .done

/-- A call is interrupted between two messages only, and no panic is caught. -/
def Patient (P : Protocol σ μ) (S : SerdeCbor) (s : Session σ μ) : Action → Prop
  | .interrupt => s.Between P S
  | .unwind => False
  | _ => True

theorem ofCarry_injective {c d : Bytes}
    (h : (Tail.ofCarry c : Tail UInt8 Error) = .ofCarry d) : c = d := by
  rw [← Tail.carry_ofCarry (ε := Error) c, h, Tail.carry_ofCarry]

/-- Between two messages nothing is kept, and only there. -/
theorem Kept.between_iff (h : s.Kept P S before) : s.Between P S ↔ s.carry = [] := by
  obtain ⟨ms, hparse, -⟩ := h
  rw [Between, hparse]
  constructor
  · exact fun hdone => ofCarry_injective hdone
  · exact fun hcarry => by rw [hcarry]; rfl

theorem Kept.frame (h : s.Kept P S before) (htaken : s'.taken = s.taken)
    (hcarry : s'.carry = s.carry) (hhanded : s'.party.handed = s.party.handed) :
    s'.Kept P S before := by
  obtain ⟨ms, hparse, hms⟩ := h
  exact ⟨ms, by rw [htaken, hcarry, hparse], hhanded.trans hms⟩

/-- The invariant of a session that a stream of messages arrives at. -/
structure Reading (P : Protocol σ μ) (S : SerdeCbor) (before : List μ) (s : Session σ μ) :
    Prop where
  kept : ∀ {es rest future}, (P.decoder S).Pending es rest (s.arrived ++ future) →
    s.position ≠ .panicked → s.Kept P S before
  awaits : ∀ bytes, s.position = .receiving bytes → s.party.channel.bytes = [] ∧
    P.agency s.party.proto ≠ .none ∧ P.agency s.party.proto ≠ P.role s.party.proto

namespace Reading

/-- Most steps read nothing. -/
theorem frame (h : s.Reading P S before) (harrived : s'.arrived = s.arrived)
    (htaken : s'.taken = s.taken) (hhanded : s'.party.handed = s.party.handed)
    (hposition : s'.position ≠ .panicked → s.position ≠ .panicked ∧ s'.carry = s.carry)
    (hawaits : ∀ bytes, s'.position ≠ .receiving bytes) : s'.Reading P S before where
  kept hpending hne := by
    obtain ⟨hne', hcarry⟩ := hposition hne
    rw [harrived] at hpending
    exact (h.kept hpending hne').frame htaken hcarry hhanded
  awaits bytes hbytes := absurd hbytes (hawaits bytes)

theorem arrive (h : s.Reading P S before) (payload : Bytes) :
    Reading P S before { s with party := s.party.arrive [payload] } where
  kept {es rest future} hpending hne := by
    have harrived :
        arrived { s with party := s.party.arrive [payload] } = s.arrived ++ payload := by
      simp [arrived, Party.arrive]
    rw [harrived, List.append_assoc] at hpending
    exact (h.kept hpending hne).frame rfl rfl rfl
  awaits := h.awaits

/-- A payload is taken, and its messages with it. -/
theorem receive (h : s.Reading P S before) {bytes q : Bytes} {qs : List Bytes} {p : Party σ μ}
    (hposition : s.position = .receiving bytes) (hq : s.party.channel.receiver = q :: qs)
    (habsorb : Party.absorb P S bytes q (s.party.dequeue qs) = (.ok (), p)) :
    Reading P S before { s with party := p, position := .loop, taken := s.taken ++ q } where
  kept {es rest future} hpending _ := by
    obtain ⟨ms, tail, carry, hfeed, rfl, hok⟩ := absorb_cases habsorb
    obtain ⟨hdeliver, htail, rfl⟩ := hok rfl
    have hstream : (P.decoder S).Pending es rest (s.taken ++ (q ++ (qs.flatten ++ future))) := by
      simpa only [arrived, Party.afterRecv, List.append_assoc] using hpending
    have hbefore : (P.decoder S).Pending es rest (s.arrived ++ future) := by
      simpa only [arrived, hq, List.flatten_cons, List.append_assoc] using hstream
    obtain ⟨ms₀, hparse, hhanded⟩ := h.kept hbefore (by rw [hposition]; simp)
    obtain ⟨ms₁, c, hparse₁, hboth⟩ := hstream.parse_append
    obtain ⟨rfl, hc⟩ := Prod.mk.inj (hparse₁.symm.trans hparse)
    have hcarry : s.carry = bytes := by rw [carry, hposition]
    obtain rfl : c = bytes := (ofCarry_injective hc).trans hcarry
    rw [hfeed] at hboth
    rw [← List.append_assoc] at hstream
    obtain ⟨done, todo, c', -, hparse', -, -⟩ := hstream.parse
    have hrest : tail = .ofCarry c' := (Prod.mk.inj (hboth.symm.trans hparse')).2
    refine ⟨ms₁ ++ ms, ?_, ?_⟩
    · show (P.decoder S).parse (s.taken ++ q) = (ms₁ ++ ms, .ofCarry tail.carry)
      rw [hboth, hrest, Tail.carry_ofCarry]
    · show (s.party.afterRecv P ms qs tail.carry).handed = before ++ (ms₁ ++ ms)
      rw [Party.handed_afterRecv, hhanded, Protocol.handed_deliveries (Prod.ext hdeliver rfl),
        List.append_assoc]
  awaits bytes hbytes := by cases hbytes

/-- **The step lemma.** -/
theorem does (h : s.Reading P S before) (hdoes : Does P S api s a s')
    (hpatient : s.Patient P S a) : s'.Reading P S before := by
  cases hdoes with
  | arrive payload => exact h.arrive payload
  | enter hposition _ => exact h.frame rfl rfl rfl (by simp [carry, hposition]) (by simp)
  | aside hposition _ =>
      exact h.frame rfl rfl rfl (by simp [carry, hposition]) (by simp [hposition])
  | leave hposition _ => exact h.frame rfl rfl rfl (by simp [carry, hposition]) (by simp)
  | await hposition hnone hrole =>
      refine ⟨fun hpending _ => ?_, fun bytes hbytes => ⟨rfl, hnone, hrole⟩⟩
      exact (h.kept hpending (by simp [hposition])).frame rfl (by simp [carry, hposition]) rfl
  | receive hposition hq habsorb => exact h.receive hposition hq habsorb
  | reject _ _ _ => exact ⟨fun _ hne => absurd rfl hne, fun bytes hbytes => by cases hbytes⟩
  | send hposition _ _ _ =>
      refine h.frame rfl rfl ?_ (by simp [carry, hposition]) (by simp)
      simp [Party.handed, Event.handed]
  | refuse _ _ _ _ _ => exact ⟨fun _ hne => absurd rfl hne, fun bytes hbytes => by cases hbytes⟩
  | serialise hposition _ => exact h.frame rfl rfl rfl (by simp [carry, hposition]) (by simp)
  | garble _ _ => exact ⟨fun _ hne => absurd rfl hne, fun bytes hbytes => by cases hbytes⟩
  | lock _ hposition => exact h.frame rfl rfl rfl (by simp [carry, hposition]) (by simp)
  | word hposition _ => exact h.frame rfl rfl rfl (by simp [carry, hposition]) (by simp)
  | payload hposition _ => exact h.frame rfl rfl rfl (by simp [carry, hposition]) (by simp)
  | writeFails _ => exact ⟨fun _ hne => absurd rfl hne, fun bytes hbytes => by cases hbytes⟩
  | @interrupt bytes hposition =>
      -- the carry goes with the future, and there is none
      obtain ⟨hbytes, -⟩ := h.awaits bytes hposition
      refine ⟨fun hpending _ => ?_, fun bytes hbytes => by cases hbytes⟩
      have hkept := h.kept hpending (by simp [hposition])
      exact hkept.frame rfl (hbytes.trans (hkept.between_iff.mp hpatient).symm) rfl
  | abandonLock hposition => exact h.frame rfl rfl rfl (by simp [carry, hposition]) (by simp)
  | abandon hposition => exact h.frame rfl rfl rfl (by simp [carry, hposition]) (by simp)
  | unwind _ => exact absurd hpatient id

/-- **The run lemma.** -/
theorem run (h : s.Reading P S before) (hrun : Run P S api (Patient P S) s s') :
    s'.Reading P S before := by
  refine Transition.invariant (fun s s' hs hstep => ?_) hrun h
  obtain ⟨a, hpatient, hdoes⟩ := hstep
  exact hs.does hdoes hpatient

end Reading

theorem reading_start {p : Party σ μ} {wire : Bytes} (hbytes : p.channel.bytes = []) :
    (start p wire).Reading P S p.handed where
  kept _ _ := by
    refine ⟨[], ?_, by simp [start]⟩
    show (P.decoder S).parse [] = ([], .ofCarry p.channel.bytes)
    rw [Decoder.parse_nil, hbytes]
    rfl
  awaits bytes h := by cases h

/-- A call that waits between two messages may be dropped and made again. If the function
finds the value as it would leave it, the session is back where it was. -/
theorem Reading.repeat_call (h : s.Reading P S before) (hposition : s.position = .receiving [])
    {setup : σ → σ} (hcalls : api.calls s.party.proto setup s.finish)
    (hsetup : setup s.party.proto = s.party.proto) (hdoes : Does P S api s .interrupt s') :
    ∃ s'', Does P S api s' .enter s'' ∧ Does P S api s'' .await s := by
  obtain ⟨hbytes, hnone, hrole⟩ := h.awaits [] hposition
  obtain ⟨⟨proto, ⟨idx, receiver, bytes, sent⟩, log⟩, position, finish, taken, before, since⟩ := s
  obtain rfl : position = .receiving [] := hposition
  obtain rfl : bytes = [] := hbytes
  cases hdoes
  have henter : Does P S api
      ⟨⟨proto, ⟨idx, receiver, [], sent⟩, log⟩, .outside, finish, taken, before, since⟩ .enter _ :=
    .enter rfl hcalls
  rw [hsetup] at henter
  exact ⟨_, henter, .await rfl hnone hrole⟩

/-- **Bytes that have not been decoded outlive an interruption between two messages, and no
other.** The payloads that arrive spell the messages `es` and the beginning of one more.
In every run in which calls are interrupted between two messages only, what has been
handed to `recv` and what is kept is what one reading of the bytes taken comes to. If a
call is interrupted, this goes on to hold exactly between two messages, and then
the call can be repeated as if nothing had happened. -/
theorem interruption_iff {es : List (μ × Bytes)} (hes : ∀ e ∈ es, P.Encoded S e.1 e.2)
    {next : μ} {w rest : Bytes} (hnext : P.Encoded S next w) (hrest : rest <+: w)
    (hne : rest ≠ w) {p : Party σ μ} (hbytes : p.channel.bytes = []) {wire : Bytes}
    (hrun : Run P S api (Patient P S) (start p wire) s)
    (harrived : s.arrived = es.flatMap Prod.snd ++ rest) :
    (s.position ≠ .panicked → s.Kept P S p.handed) ∧
      ∀ s', Does P S api s .interrupt s' →
        (s'.Kept P S p.handed ↔ s.Between P S) ∧
        (s.Between P S → ∀ setup, api.calls s.party.proto setup s.finish →
          setup s.party.proto = s.party.proto →
          ∃ s'', Does P S api s' .enter s'' ∧ Does P S api s'' .await s) := by
  have h : s.Reading P S p.handed := (reading_start hbytes).run hrun
  have hpending : (P.decoder S).Pending es rest (s.arrived ++ []) :=
    ⟨⟨w, next, hnext.codeword, hrest, hne⟩, Protocol.coded_of_encoded hes,
      by rw [List.append_nil, harrived]⟩
  refine ⟨h.kept hpending, fun s' hdoes => ?_⟩
  have hwaits : ∃ bytes, s.position = .receiving bytes := by
    cases hdoes with
    | interrupt hposition => exact ⟨_, hposition⟩
  obtain ⟨bytes, hposition⟩ := hwaits
  have hkept : s.Kept P S p.handed := h.kept hpending (by simp [hposition])
  obtain ⟨hlocal, -⟩ := h.awaits bytes hposition
  refine ⟨⟨fun hkept' => ?_, fun hbetween => ?_⟩, fun hbetween setup hcalls hsetup => ?_⟩
  · cases hdoes
    obtain ⟨ms, hparse, -⟩ := hkept'
    rw [show carry { s with position := .outside } = [] from hlocal] at hparse
    rw [Between, hparse]
    rfl
  · have hnone : s.carry = [] := hkept.between_iff.mp hbetween
    cases hdoes
    exact hkept.frame rfl (hlocal.trans hnone.symm) rfl
  · have hnone : s.carry = [] := hkept.between_iff.mp hbetween
    rw [carry, hposition] at hnone
    obtain rfl : bytes = [] := hnone
    exact h.repeat_call hposition hcalls hsetup hdoes

end Session

open Chainsync Session

theorem encoded_awaitReply :
    (protocol Cbor.serdeCbor id).Encoded Cbor.serdeCbor .awaitReply [0x81, 1] :=
  Message.encoded Cbor.serdeCbor_lawful rfl

/-- The client that waits takes a payload. -/
theorem run_awaitReply {q : Bytes} {ms : List Message} {tail : Tail UInt8 Error} {proto : ChainSync}
    (hfeed : ((protocol Cbor.serdeCbor id).decoder Cbor.serdeCbor).feed [] q = (ms, tail))
    (htail : ∀ e, tail ≠ .fail e)
    (hdeliver : (protocol Cbor.serdeCbor id).deliver ms waiting.proto = (.ok (), proto))
    (hproto : proto.agency = .server) :
    ∃ s, Run (protocol Cbor.serdeCbor id) Cbor.serdeCbor Chainsync.api
        (Patient (protocol Cbor.serdeCbor id) Cbor.serdeCbor) (start client []) s ∧
      s.position = .receiving tail.carry ∧ s.taken = q ∧ s.party.handed = ms ∧
      s.party.channel.bytes = [] ∧ s.party.channel.receiver = [] := by
  obtain ⟨finish, since, hrun⟩ := run_waiting (Patient (protocol Cbor.serdeCbor id) Cbor.serdeCbor)
    (by rintro s a (rfl | rfl | rfl | rfl) <;> trivial) (fun _ _ => trivial) (fun _ _ => trivial)
    fun _ _ => trivial
  have hnone : proto.agency ≠ .none := by simp [hproto]
  have hrole : proto.agency ≠ proto.role := by simp [hproto, ChainSync.role]
  refine ⟨_, hrun.trans (run_payload ?_ rfl rfl hfeed hdeliver htail hnone hrole), rfl, rfl, ?_,
    rfl, rfl⟩
  · rintro s a (rfl | rfl | rfl) <;> trivial
  · exact Protocol.handed_deliveries hdeliver

/-- The answer to a chain-sync client is read, and the call is dropped while it waits for
the next one. -/
theorem interruption_awaitReply :
    ∃ s s' : Session ChainSync Message, s.party.handed = [.awaitReply] ∧
      Does (protocol Cbor.serdeCbor id) Cbor.serdeCbor Chainsync.api s .interrupt s' ∧
      s'.Kept (protocol Cbor.serdeCbor id) Cbor.serdeCbor [] := by
  have hwhole : ∀ e ∈ [((.awaitReply : Message), [(0x81 : UInt8), 1])],
      (protocol Cbor.serdeCbor id).Encoded Cbor.serdeCbor e.1 e.2 := by
    simp only [List.mem_singleton, forall_eq]
    exact encoded_awaitReply
  have hfeed := Protocol.feed_whole hwhole
  obtain ⟨s, hrun, hposition, htaken, hhanded, -, hreceiver⟩ :=
    run_awaitReply hfeed (by simp) rfl rfl
  have harrived : s.arrived = [0x81, 1] ++ [] := by
    rw [arrived, htaken, hreceiver]
    rfl
  have hkept :=
    interruption_iff hwhole encoded_awaitReply List.nil_prefix (by simp) rfl hrun harrived
  have hdrop : Does (protocol Cbor.serdeCbor id) Cbor.serdeCbor Chainsync.api s .interrupt _ :=
    .interrupt hposition
  refine ⟨s, _, hhanded, hdrop, (hkept.2 _ hdrop).1.mpr ?_⟩
  rw [Between, htaken]
  exact congrArg Prod.snd hfeed

/-- The first byte of the answer is read, and the call is dropped. The byte is lost. -/
theorem byte_lost :
    ∃ s s', Run (protocol Cbor.serdeCbor id) Cbor.serdeCbor Chainsync.api
        (Patient (protocol Cbor.serdeCbor id) Cbor.serdeCbor) (start client []) s ∧
      Does (protocol Cbor.serdeCbor id) Cbor.serdeCbor Chainsync.api s .interrupt s' ∧
      s'.arrived = [0x81] ∧ s'.party.handed = [] ∧
      s'.carry ++ s'.party.channel.receiver.flatten = [] ∧
      ¬ s'.Kept (protocol Cbor.serdeCbor id) Cbor.serdeCbor [] := by
  have hpartial : ((protocol Cbor.serdeCbor id).decoder Cbor.serdeCbor).Partial [0x81] :=
    ⟨_, _, encoded_awaitReply.codeword, ⟨[1], rfl⟩, by simp⟩
  obtain ⟨s, hrun, hposition, htaken, hhanded, hbytes, hreceiver⟩ :=
    run_awaitReply hpartial.parse (by simp [Tail.ofCarry]) rfl rfl
  refine ⟨s, _, hrun, .interrupt hposition, ?_, hhanded, ?_, ?_⟩
  · show s.taken ++ s.party.channel.receiver.flatten = [0x81]
    rw [htaken, hreceiver]
    rfl
  · show s.party.channel.bytes ++ s.party.channel.receiver.flatten = []
    rw [hbytes, hreceiver]
    rfl
  · rintro ⟨ms, hparse, -⟩
    have hcarry : carry { s with position := .outside } = [] := hbytes
    rw [hcarry, htaken, hpartial.parse] at hparse
    cases hparse

end Ouroboros
