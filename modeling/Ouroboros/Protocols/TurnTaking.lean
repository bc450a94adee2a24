import Ouroboros.Library.Transition
import Ouroboros.Protocols.ChainsyncAnswers
import Ouroboros.Protocols.BlockfetchStream
import Ouroboros.Protocols.HandshakeServer

/-!
Messages out of turn.

`receive_bytes` asserts once that it is the peer's turn, and then hands every
message of its data to `recv`. Whether a message that comes too late is rejected
is up to `recv`. The block-fetch client and the handshake client reject it. The
chain-sync client never looks at its state, and the handshake server runs into
the arm of `recv` that was written for the client; both take messages out of
turn when these follow, in one payload, a message that ends the peer's turn.
-/

set_option linter.dupNamespace false

namespace Ouroboros

open Relation

variable {σ μ : Type}

/-- A message that finds the turn elsewhere is rejected and changes nothing. -/
def Event.InTurn (theirs : σ → Prop) : Event σ μ → Prop
  | .tx _ => True
  | .rx before _ result after => ¬ theirs before → result ≠ .ok () ∧ after = before

/-- The messages of the payload that a party will read next. -/
def Party.batch (P : Protocol σ μ) (S : SerdeCbor) (p : Party σ μ) : List μ :=
  match p.channel.receiver with
  | [] => []
  | payload :: _ => ((P.decoder S).feed p.channel.bytes payload).1

/-- The party reads in its next turn. -/
def Party.Reads (P : Protocol σ μ) (p : Party σ μ) : Prop :=
  P.agency p.proto ≠ .none ∧ P.agency p.proto ≠ P.role p.proto

/-- The loop takes a turn, or panics in it. -/
def Party.Takes (P : Protocol σ μ) (S : SerdeCbor) (p p' : Party σ μ) : Prop :=
  Party.turn P S p = .next p' ∨ ∃ e, Party.turn P S p = .panic e p'

/-- What can happen to a party: payloads arrive, the public functions do to the
protocol value what `api` says, the loop takes a turn, and a waiting call is
dropped, with the carry it has taken. Only payloads that meet `ok` are read. -/
inductive Party.Step (P : Protocol σ μ) (S : SerdeCbor) (api : σ → σ → Prop)
    (ok : List μ → Prop) : Party σ μ → Party σ μ → Prop
  | arrive {p : Party σ μ} (payload : Bytes) : Step P S api ok p (p.arrive [payload])
  | api {p : Party σ μ} {s : σ} : api p.proto s → Step P S api ok p { p with proto := s }
  | turn {p p' : Party σ μ} : (p.Reads P → ok (p.batch P S)) → p.Takes P S p' →
      Step P S api ok p p'
  | cancel {p : Party σ μ} : Step P S api ok p p.takeCarry

/-- The runs of a party. -/
abbrev Party.Run (P : Protocol σ μ) (S : SerdeCbor) (api : σ → σ → Prop) (ok : List μ → Prop) :
    Party σ μ → Party σ μ → Prop :=
  ReflTransGen (Party.Step P S api ok)

theorem Party.Run.mono {P : Protocol σ μ} {S : SerdeCbor} {api : σ → σ → Prop}
    {ok ok' : List μ → Prop} (himp : ∀ ms, ok ms → ok' ms) {p p' : Party σ μ}
    (h : Party.Run P S api ok p p') : Party.Run P S api ok' p p' := by
  refine ReflTransGen.mono (fun a b hab => ?_) p p' h
  cases hab with
  | arrive payload => exact .arrive payload
  | api hs => exact .api hs
  | turn hok ht => exact .turn (fun hreads => himp _ (hok hreads)) ht
  | cancel => exact .cancel

/-- In the states `I`, the payloads that meet `ok` are those whose messages, read in
the peer's turn, are all taken in turn. -/
structure Protocol.Polite (P : Protocol σ μ) (theirs : σ → Prop) (ok : List μ → Prop)
    (I : σ → Prop) : Prop where
  deliveries : ∀ {s ms}, I s → P.agency s ≠ .none → P.agency s ≠ P.role s →
    ((∀ ev ∈ P.deliveries ms s, ev.InTurn theirs) ↔ ok ms)
  recv : ∀ {s m}, I s → I (P.recv s m).2
  send : ∀ {s}, I s → I (P.send s).2

namespace Protocol.Polite

variable {P : Protocol σ μ} {S : SerdeCbor} {theirs : σ → Prop} {ok : List μ → Prop}
  {I : σ → Prop} {api : σ → σ → Prop}

theorem deliver (h : P.Polite theirs ok I) {ms : List μ} {s : σ} (hs : I s) :
    I (P.deliver ms s).2 :=
  deliver_keeps (fun _ _ => h.recv) ms hs

/-- What a turn adds to the log is in turn exactly if the turn reads a payload that
meets `ok`, or none. -/
theorem takes (h : P.Polite theirs ok I) {p p' : Party σ μ} (ht : p.Takes P S p')
    (hp : I p.proto) : I p'.proto ∧ ∃ evs, p'.log = p.log ++ evs ∧
      ((∀ ev ∈ evs, ev.InTurn theirs) ↔ (p.Reads P → ok (p.batch P S))) := by
  have hread : ∀ {q : Bytes} {qs : List Bytes} {ms : List μ} {tail carry},
      p.channel.receiver = q :: qs → (P.decoder S).feed p.channel.bytes q = (ms, tail) →
      P.agency p.proto ≠ .none → P.agency p.proto ≠ P.role p.proto →
      I (p.afterRecv P ms qs carry).proto ∧
        ∃ evs, (p.afterRecv P ms qs carry).log = p.log ++ evs ∧
          ((∀ ev ∈ evs, ev.InTurn theirs) ↔ (p.Reads P → ok (p.batch P S))) := by
    intro q qs ms tail carry hq hfeed hnone hrole
    have hbatch : p.batch P S = ms := by
      simp only [Party.batch, hq, hfeed]
    refine ⟨h.deliver hp, P.deliveries ms p.proto, rfl, ?_⟩
    rw [hbatch, h.deliveries hp hnone hrole]
    exact ⟨fun hok _ => hok, fun hok => hok ⟨hnone, hrole⟩⟩
  have hsends : P.agency p.proto = P.role p.proto → p.Reads P → ok (p.batch P S) :=
    fun hrole hreads => absurd hrole hreads.2
  rcases ht with ht | ⟨e, ht⟩
  · cases Party.turned_of_next ht with
    | @send m s data hnone hrole hsend hdata =>
        have hs := h.send hp
        rw [hsend] at hs
        exact ⟨hs, [.tx m], rfl, iff_of_true (by simp [Event.InTurn]) (hsends hrole)⟩
    | recv hnone hrole hq hfeed _ _ => exact hread hq hfeed hnone hrole
  · cases Party.faulted_of_panic ht with
    | @send r s e hnone hrole hsend _ =>
        have hs := h.send hp
        rw [hsend] at hs
        refine ⟨hs, _, rfl, iff_of_true ?_ (hsends hrole)⟩
        cases r <;> simp [Event.InTurn]
    | recv hnone hrole hq hfeed _ => exact hread hq hfeed hnone hrole

/-- **The step lemma.** A step only adds to the log. What it adds is in turn if its
payloads meet `ok`; and if what it adds is in turn, they do. -/
theorem step (h : P.Polite theirs ok I) (hapi : ∀ s s', I s → api s s' → I s')
    {any : List μ → Prop} {p p' : Party σ μ} (hstep : Party.Step P S api any p p')
    (hp : I p.proto) : I p'.proto ∧ ∃ evs, p'.log = p.log ++ evs ∧
      ((∀ ms, any ms → ok ms) → ∀ ev ∈ evs, ev.InTurn theirs) ∧
      ((∀ ev ∈ evs, ev.InTurn theirs) → Party.Step P S api ok p p') := by
  cases hstep with
  | arrive payload => exact ⟨hp, [], (List.append_nil _).symm, by simp, fun _ => .arrive payload⟩
  | api hs => exact ⟨hapi _ _ hp hs, [], (List.append_nil _).symm, by simp, fun _ => .api hs⟩
  | cancel => exact ⟨hp, [], (List.append_nil _).symm, by simp, fun _ => .cancel⟩
  | turn hany ht =>
      obtain ⟨hp', evs, hlog, hiff⟩ := h.takes ht hp
      exact ⟨hp', evs, hlog, fun himp => hiff.mpr fun hreads => himp _ (hany hreads),
        fun hevs => .turn (hiff.mp hevs) ht⟩

/-- **The run lemma.** Nothing is taken out of turn in a run exactly if it reads no
payload that fails `ok`. -/
theorem run (h : P.Polite theirs ok I) (hapi : ∀ s s', I s → api s s' → I s')
    {p p' : Party σ μ} (hrun : Party.Run P S api (fun _ => True) p p') (hp : I p.proto)
    (hlog : p.log = []) :
    (∀ ev ∈ p'.log, ev.InTurn theirs) ↔ Party.Run P S api ok p p' := by
  constructor
  · intro hin
    have hI : ∀ {q}, Party.Run P S api (fun _ => True) p q → I q.proto := fun hq =>
      Transition.invariant (I := fun q => I q.proto)
        (fun _ _ ha hab => (h.step hapi hab ha).1) hq hp
    induction hrun with
    | refl => exact .refl
    | tail hq hstep ih =>
        -- the log of the shorter run is a part of the longer one
        obtain ⟨-, evs, hevs, -, hok⟩ := h.step hapi hstep (hI hq)
        rw [hevs] at hin
        have hprev := ih fun ev hev => hin ev (List.mem_append_left _ hev)
        exact hprev.tail (hok fun ev hev => hin ev (List.mem_append_right _ hev))
  · intro hok
    have hstart : I p.proto ∧ ∀ ev ∈ p.log, ev.InTurn theirs := ⟨hp, by simp [hlog]⟩
    refine (Transition.invariant (I := fun q => I q.proto ∧ ∀ ev ∈ q.log, ev.InTurn theirs)
      (fun a b ha hab => ?_) hok hstart).2
    obtain ⟨hb, evs, hevs, hin, -⟩ := h.step hapi hab ha.1
    refine ⟨hb, fun ev hev => ?_⟩
    rw [hevs] at hev
    exact (List.mem_append.mp hev).elim (ha.2 ev) (hin (fun _ => id) ev)

end Protocol.Polite

/-! ### What `recv` makes of a payload -/

variable {P : Protocol σ μ} {Q : Event σ μ → Prop}

theorem Protocol.deliveries_rejected {m : μ} {s : σ} (ms : List μ)
    (h : (P.recv s m).1 ≠ .ok ()) :
    P.deliveries (m :: ms) s = [.rx s m (P.recv s m).1 (P.recv s m).2] := by
  cases hrecv : P.recv s m with
  | mk r t =>
      cases r with
      | ok u => exact absurd (by rw [hrecv]) h
      | err e => simp only [deliveries, hrecv]
      | panic e => simp only [deliveries, hrecv]

/-- What holds of every call of `recv` in the states `J` holds of every entry. -/
theorem Protocol.forall_deliveries {J : σ → Prop}
    (hrecv : ∀ s m, J s → Q (.rx s m (P.recv s m).1 (P.recv s m).2) ∧ J (P.recv s m).2)
    (ms : List μ) {s : σ} (hs : J s) : ∀ ev ∈ P.deliveries ms s, Q ev := by
  induction ms generalizing s with
  | nil => simp [deliveries]
  | cons m ms ih =>
      obtain ⟨hQ, hJ⟩ := hrecv s m hs
      rw [deliveries]
      refine List.forall_mem_cons.mpr ⟨hQ, ?_⟩
      split
      · rename_i s' heq
        rw [heq] at hJ
        exact ih hJ
      all_goals simp

end Ouroboros

namespace Ouroboros.Blockfetch

/-- `Busy` and `Streaming`. -/
def BlockFetch.Theirs (s : BlockFetch) : Prop := s.state = .busy ∨ s.state = .streaming

/-- What `run`, `done` and `next` do to the protocol value outside the loop. -/
def BlockFetch.Api (s s' : BlockFetch) : Prop := s' = s.start ∨ s' = s.finish ∨ s' = s.pop.2

/-- `recv` takes nothing in a state that is not the server's. -/
theorem recv_inTurn (s : BlockFetch) (m : Message) :
    Event.InTurn BlockFetch.Theirs (.rx s m (s.recv m).1 (s.recv m).2) := by
  intro htheirs
  obtain ⟨config, state, result, running, done⟩ := s
  cases state with
  | idle => simp [BlockFetch.recv]
  | done => simp [BlockFetch.recv]
  | busy => exact absurd (.inl rfl) htheirs
  | streaming => exact absurd (.inr rfl) htheirs

theorem polite : protocol.Polite BlockFetch.Theirs (fun _ => True) fun _ => True where
  deliveries _ _ _ := iff_of_true
    (Protocol.forall_deliveries (P := protocol) (J := fun _ => True)
      (fun s m _ => ⟨recv_inTurn s m, trivial⟩) _ trivial) trivial
  recv _ := trivial
  send _ := trivial

end Ouroboros.Blockfetch

namespace Ouroboros.Handshake

/-- `Confirm` for a client, `Propose` for a server. -/
def Handshake.Theirs (s : Handshake) : Prop :=
  match s.role with
  | .client => s.state = .confirm
  | .server => s.state = .propose
  | .none => False

/-- A payload whose second message, if there is one, is a proposal. -/
def Prompt : List Message → Prop
  | _ :: m :: _ => ∃ versions, m = .proposeVersions versions
  | _ => True

theorem recv_role (s : Handshake) (m : Message) : (s.recv m).2.role = s.role :=
  (recv_config s m).1

theorem send_role (s : Handshake) : s.send.2.role = s.role :=
  (send_config s).1

/-- A client that waits, or is done, takes messages only while it waits. -/
theorem recv_inTurn {s : Handshake} (m : Message)
    (hs : s.role = .client ∧ s.state ≠ .propose) :
    Event.InTurn Handshake.Theirs (.rx s m (s.recv m).1 (s.recv m).2) ∧
      (s.recv m).2.role = .client ∧ (s.recv m).2.state ≠ .propose := by
  obtain ⟨role, versions, networkMagic, state, version⟩ := s
  obtain ⟨rfl, hstate⟩ := hs
  refine ⟨fun htheirs => ?_, recv_role _ m, (recv_state _ m).1⟩
  cases state with
  | propose => exact absurd rfl hstate
  | confirm => exact absurd rfl htheirs
  | done => simp [Handshake.recv]

theorem polite_client (S : SerdeCbor) :
    (protocol S).Polite Handshake.Theirs (fun _ => True) fun s => s.role = .client where
  deliveries {s ms} hs hnone hrole := by
    refine iff_of_true (Protocol.forall_deliveries (P := protocol S)
      (fun _ m ht => recv_inTurn m ht) ms ⟨hs, fun hstate => hrole ?_⟩) trivial
    have hagency : s.agency = .client := by rw [Handshake.agency, hstate]
    exact hagency.trans hs.symm
  recv hs := (recv_role _ _).trans hs
  send hs := (send_role _).trans hs

/-- The server takes the first message in turn. After it, only a proposal is
turned away. -/
theorem polite_server (S : SerdeCbor) :
    (protocol S).Polite Handshake.Theirs Prompt fun s => s.role = .server where
  deliveries {s ms} hs hnone hrole := by
    obtain ⟨role, versions, networkMagic, state, version⟩ := s
    cases hs
    cases state with
    | confirm => exact absurd rfl hrole
    | done => exact absurd rfl hnone
    | propose =>
        -- the second message finds the state `Confirm`, whatever the first one was
        rcases ms with _ | ⟨m, _ | ⟨m', ms⟩⟩
        · simp [Protocol.deliveries, Prompt]
        · simp [Protocol.deliveries, protocol, Handshake.recv, Prompt, Event.InTurn,
            Handshake.Theirs]
        · cases m' with
          | proposeVersions proposed =>
              simp [Protocol.deliveries, protocol, Handshake.recv, Prompt, Event.InTurn,
                Handshake.Theirs]
          | acceptVersion v magic =>
              by_cases hmagic : magic = networkMagic <;>
                simp [Protocol.deliveries, protocol, Handshake.recv, Prompt, Event.InTurn,
                  Handshake.Theirs, hmagic]
          | refuse =>
              simp [Protocol.deliveries, protocol, Handshake.recv, Prompt, Event.InTurn,
                Handshake.Theirs]
  recv hs := (recv_role _ _).trans hs
  send hs := (send_role _).trans hs

end Ouroboros.Handshake

namespace Ouroboros.Chainsync

/-- `Intersect`, `CanAwait` and `MustReply`. -/
def ChainSync.Theirs (s : ChainSync) : Prop :=
  s.state = .intersect ∨ s.state = .canAwait ∨ s.state = .mustReply

/-- What the two calls do to the protocol value outside the loop. -/
def ChainSync.Api (s s' : ChainSync) : Prop :=
  (∃ query, s' = s.ask query) ∨ s' = s.takeIntersect.2 ∨ s' = s.takeReply.2

variable (S : SerdeCbor) (blake2b : Bytes → Bytes)

/-- The messages that `recv` turns away in every state. -/
def Message.Rejected : Message → Prop
  | .findIntersect _ => True
  | .rollForward header _ => ∀ h, BlockHeader.tryInto S blake2b header ≠ .ok h
  | _ => False

/-- A payload in which an answer, or `Done`, is the last message or is followed by
one that is rejected. -/
def Orderly : List Message → Prop
  | [] => True
  | m :: ms =>
    m.Rejected S blake2b ∨
      if m.settles ∨ m = .done then ∀ m' ∈ ms.head?, m'.Rejected S blake2b else Orderly ms

variable {S blake2b}

theorem recv_rejected {m : Message} (s : ChainSync) (h : m.Rejected S blake2b) :
    (s.recv S blake2b m).1 ≠ .ok () ∧ (s.recv S blake2b m).2 = s := by
  cases m with
  | findIntersect points => simp [ChainSync.recv]
  | rollForward header tip =>
      simp only [ChainSync.recv]
      split
      case h_1 header' hheader => exact absurd hheader (h header')
      all_goals simp
  | _ => exact h.elim

/-- The state a message leaves does not depend on the state it finds. -/
theorem recv_taken {m : Message} (s : ChainSync) (h : ¬ m.Rejected S blake2b) :
    ∃ s', s.recv S blake2b m = (.ok (), s') ∧ (s'.Theirs ↔ ¬ (m.settles ∨ m = .done)) := by
  cases m with
  | findIntersect points => exact absurd trivial h
  | rollForward header tip =>
      simp only [Message.Rejected, not_forall, not_not] at h
      obtain ⟨header', hheader⟩ := h
      simp [ChainSync.recv, hheader, ChainSync.Theirs, Message.settles]
  | _ => simp [ChainSync.recv, ChainSync.Theirs, Message.settles]

theorem deliveries_not_theirs {s : ChainSync} (hs : ¬ s.Theirs) (ms : List Message) :
    (∀ ev ∈ (protocol S blake2b).deliveries ms s, ev.InTurn ChainSync.Theirs) ↔
      ∀ m ∈ ms.head?, m.Rejected S blake2b := by
  cases ms with
  | nil => simp [Protocol.deliveries]
  | cons m ms =>
      by_cases hm : m.Rejected S blake2b
      · have hrejected := recv_rejected s hm
        rw [Protocol.deliveries_rejected (P := protocol S blake2b) ms hrejected.1]
        refine iff_of_true ?_ (by simpa using hm)
        rw [List.forall_mem_singleton]
        exact fun _ => hrejected
      · obtain ⟨s', hrecv, -⟩ := recv_taken s hm
        rw [Protocol.deliveries_cons_ok (P := protocol S blake2b) hrecv]
        refine iff_of_false (fun hall => ?_) (by simpa using hm)
        exact ((List.forall_mem_cons.mp hall).1 hs).1 rfl

theorem deliveries_theirs {s : ChainSync} (hs : s.Theirs) (ms : List Message) :
    (∀ ev ∈ (protocol S blake2b).deliveries ms s, ev.InTurn ChainSync.Theirs) ↔
      Orderly S blake2b ms := by
  induction ms generalizing s with
  | nil => simp [Protocol.deliveries, Orderly]
  | cons m ms ih =>
      have hfirst : ∀ r s', (Event.rx s m r s').InTurn ChainSync.Theirs :=
        fun _ _ hnot => absurd hs hnot
      rw [Orderly]
      -- a rejected message ends the payload, and an answer or `Done` ends the turn
      by_cases hm : m.Rejected S blake2b
      · rw [Protocol.deliveries_rejected (P := protocol S blake2b) ms (recv_rejected s hm).1]
        exact iff_of_true (by simpa using hfirst _ _) (.inl hm)
      · obtain ⟨s', hrecv, hs'⟩ := recv_taken s hm
        rw [Protocol.deliveries_cons_ok (P := protocol S blake2b) hrecv, List.forall_mem_cons,
          and_iff_right (hfirst _ _), or_iff_right hm]
        split_ifs with hcloses
        · exact deliveries_not_theirs (fun h => hs'.mp h hcloses) ms
        · exact ih (hs'.mpr hcloses)

theorem polite : (protocol S blake2b).Polite ChainSync.Theirs (Orderly S blake2b)
    fun _ => True where
  deliveries {s ms} _ hnone hrole := by
    refine deliveries_theirs ?_ ms
    obtain ⟨query, intersect, reply, state⟩ := s
    cases query with
    | none => exact absurd rfl hnone
    | some query =>
        cases state with
        | idle => exact absurd rfl hrole
        | done => exact absurd rfl hnone
        | intersect => exact .inl rfl
        | canAwait => exact .inr (.inl rfl)
        | mustReply => exact .inr (.inr rfl)
  recv _ := trivial
  send _ := trivial

end Ouroboros.Chainsync

namespace Ouroboros

/-- **Messages out of turn.** The block-fetch client and the handshake client take
no message out of turn in any run. A run of the handshake server, or of the
chain-sync client, takes none exactly if every payload it reads is `Prompt`, or
`Orderly`. -/
theorem messages_in_turn (S : SerdeCbor) (blake2b : Bytes → Bytes) :
    (∀ b p p', Blockfetch.Builder.client b = .ok p →
      Party.Run Blockfetch.protocol S Blockfetch.BlockFetch.Api (fun _ => True) p p' →
        ∀ ev ∈ p'.log, ev.InTurn Blockfetch.BlockFetch.Theirs) ∧
    (∀ b p p', Handshake.HandshakeBuilder.client b = .ok p →
      Party.Run (Handshake.protocol S) S (fun _ _ => False) (fun _ => True) p p' →
        ∀ ev ∈ p'.log, ev.InTurn Handshake.Handshake.Theirs) ∧
    (∀ b p p', Handshake.HandshakeBuilder.server b = .ok p →
      Party.Run (Handshake.protocol S) S (fun _ _ => False) (fun _ => True) p p' →
        ((∀ ev ∈ p'.log, ev.InTurn Handshake.Handshake.Theirs) ↔
          Party.Run (Handshake.protocol S) S (fun _ _ => False) Handshake.Prompt p p')) ∧
    (∀ p', Party.Run (Chainsync.protocol S blake2b) S Chainsync.ChainSync.Api (fun _ => True)
        Chainsync.client p' →
      ((∀ ev ∈ p'.log, ev.InTurn Chainsync.ChainSync.Theirs) ↔
        Party.Run (Chainsync.protocol S blake2b) S Chainsync.ChainSync.Api
          (Chainsync.Orderly S blake2b) Chainsync.client p')) := by
  refine ⟨fun b p p' hp hrun => ?_, fun b p p' hp hrun => ?_, fun b p p' hp hrun => ?_,
    fun p' hrun => Chainsync.polite.run (fun _ _ _ _ => trivial) hrun trivial rfl⟩
  · have hlog : p.log = [] := by
      obtain ⟨first, last⟩ := b
      cases first <;> cases last <;> cases hp
      rfl
    exact (Blockfetch.polite.run (fun _ _ _ _ => trivial) hrun trivial hlog).mpr hrun
  · cases hp
    exact ((Handshake.polite_client S).run (fun _ _ _ h => h.elim) hrun rfl rfl).mpr hrun
  · cases hp
    exact (Handshake.polite_server S).run (fun _ _ _ h => h.elim) hrun rfl rfl

namespace Chainsync

/-- The runs of a fresh client that asks for an intersection and gets one payload of
whole messages. -/
theorem run_intersect {blake2b : Bytes → Bytes} (ok : List Message → Prop)
    (es : List (Message × Bytes))
    (hes : ∀ e ∈ es, (protocol Cbor.serdeCbor blake2b).Encoded Cbor.serdeCbor e.1 e.2)
    (hok : ok (es.map Prod.fst)) {s : ChainSync}
    (hdeliver : (protocol Cbor.serdeCbor blake2b).deliver (es.map Prod.fst)
      ⟨some (.intersect []), none, none, .intersect⟩ = (.ok (), s)) :
    ∃ p, Party.Run (protocol Cbor.serdeCbor blake2b) Cbor.serdeCbor ChainSync.Api ok client p ∧
      p.log = .tx (.findIntersect []) :: (protocol Cbor.serdeCbor blake2b).deliveries
        (es.map Prod.fst) ⟨some (.intersect []), none, none, .intersect⟩ := by
  let P := protocol Cbor.serdeCbor blake2b
  let p₁ : Party ChainSync Message := { client with proto := client.proto.ask (.intersect []) }
  let p₂ : Party ChainSync Message :=
    { proto := ⟨some (.intersect []), none, none, .intersect⟩
      channel := ⟨2, [], [], [[0x82, 4, 0x80]]⟩
      log := [.tx (.findIntersect [])] }
  let p₃ := p₂.arrive [es.flatMap Prod.snd]
  have h₁ : Party.turn P Cbor.serdeCbor p₁ = .next p₂ :=
    Party.turn_send_ok (by simp [p₁, P, protocol, client, ChainSync.agency, ChainSync.ask]) rfl
      rfl rfl
  have hserver : P.agency p₃.proto = .server := rfl
  have hclient : P.role p₃.proto = .client := rfl
  have hnone : P.agency p₃.proto ≠ .none := by
    rw [hserver]
    decide
  have hrole : P.agency p₃.proto ≠ P.role p₃.proto := by
    rw [hserver, hclient]
    decide
  have h₃ : Party.turn P Cbor.serdeCbor p₃ = .next (p₃.afterRecv P (es.map Prod.fst) [] []) :=
    Party.turn_recv_whole hes hnone hrole rfl rfl hdeliver
  have hbatch : p₃.batch P Cbor.serdeCbor = es.map Prod.fst :=
    congrArg Prod.fst (Protocol.feed_whole hes)
  have hrun : Party.Run P Cbor.serdeCbor ChainSync.Api ok client p₂ :=
    (Relation.ReflTransGen.single (.api (.inl ⟨_, rfl⟩))).tail
      (.turn (fun hreads => absurd rfl hreads.2) (.inl h₁))
  exact ⟨_, (hrun.tail (.arrive _)).tail (.turn (fun _ => hbatch ▸ hok) (.inl h₃)), rfl⟩

theorem encoded_intersectNotFound (blake2b : Bytes → Bytes) :
    (protocol Cbor.serdeCbor blake2b).Encoded Cbor.serdeCbor (.intersectNotFound ⟨9, 8, [2]⟩)
      [0x82, 6, 0x82, 0x82, 8, 0x41, 2, 9] :=
  Message.encoded Cbor.serdeCbor_lawful rfl

end Chainsync

/-- A client that is told, in one payload, that there is no intersection and that it
has to wait, takes the second message after its query has been answered. -/
theorem awaitReply_out_of_turn :
    ∃ p, Party.Run (Chainsync.protocol Cbor.serdeCbor id) Cbor.serdeCbor Chainsync.ChainSync.Api
        (fun _ => True) Chainsync.client p ∧
      ¬ ∀ ev ∈ p.log, ev.InTurn Chainsync.ChainSync.Theirs := by
  have hawait : (Chainsync.protocol Cbor.serdeCbor id).Encoded Cbor.serdeCbor .awaitReply
      [0x81, 1] :=
    Chainsync.Message.encoded Cbor.serdeCbor_lawful rfl
  obtain ⟨p, hrun, hlog⟩ := Chainsync.run_intersect (fun _ => True) [(_, _), (_, _)]
    (List.forall_mem_cons.mpr ⟨Chainsync.encoded_intersectNotFound id,
      List.forall_mem_singleton.mpr hawait⟩) trivial rfl
  refine ⟨p, hrun, fun hall => ?_⟩
  rw [hlog] at hall
  have hlate := hall (.rx ⟨none, some (.notFound ⟨9, 8, [2]⟩), none, .idle⟩ .awaitReply (.ok ())
    ⟨none, some (.notFound ⟨9, 8, [2]⟩), none, .mustReply⟩)
    (.tail _ (.tail _ (.head _)))
  exact (hlate (by simp [Chainsync.ChainSync.Theirs])).1 rfl

/-- A client that is told no more than that there is no intersection. -/
theorem messages_in_turn_intersect :
    ∃ p : Party Chainsync.ChainSync Chainsync.Message, p.log.length = 2 ∧
      ∀ ev ∈ p.log, ev.InTurn Chainsync.ChainSync.Theirs := by
  obtain ⟨p, hrun, hlog⟩ := Chainsync.run_intersect (Chainsync.Orderly Cbor.serdeCbor id)
    [(_, _)] (List.forall_mem_singleton.mpr (Chainsync.encoded_intersectNotFound id))
    (by simp [Chainsync.Orderly, Chainsync.Message.settles]) rfl
  have hany := hrun.mono fun _ _ => trivial
  exact ⟨p, by rw [hlog]; rfl, ((messages_in_turn Cbor.serdeCbor id).2.2.2 p hany).mpr hrun⟩

end Ouroboros
