import Ouroboros.Library.Transition
import Ouroboros.Protocols.HandshakeCodec
import Ouroboros.Protocols.Session

/-!
The sending side of `execute`.

`send_bytes` unwraps what `send` returns, the values of the message, and their bytes.
`send` fails in the states that are the peer's or nobody's, and the values of a proposal
or an acceptance fail for a version that is not supported. So the three unwraps are safe
if the turn of a party implies that `send` knows its state, and if the versions of a
handshake are those of its builder throughout.
-/

namespace Ouroboros

open Session

section

variable {σ μ : Type} {P : Protocol σ μ} {S : SerdeCbor} {api : Api σ} {I : σ → Prop}

/-- What `send_bytes` unwraps is there: a message, its values, and their bytes. -/
def Protocol.Sends (P : Protocol σ μ) (S : SerdeCbor) (s : σ) : Prop :=
  ∃ m s' values data, P.send s = (.ok m, s') ∧ P.toValues m = .ok values ∧
    S.toVec values = .ok data

theorem Protocol.toBytes_of_toVec {m : μ} {values : List Value} {data : Bytes}
    (hvalues : P.toValues m = .ok values) (hdata : S.toVec values = .ok data) :
    P.toBytes S m = .ok data := by
  simp [Protocol.toBytes, hvalues, hdata]

theorem Protocol.Sends.sendBytes {p : Party σ μ} (h : P.Sends S p.proto) :
    ∃ data p', p.sendBytes P S = (.ok data, p') := by
  obtain ⟨m, s', values, data, hsend, hvalues, hdata⟩ := h
  exact ⟨data, _, by
    simp only [Party.sendBytes, hsend, Protocol.toBytes_of_toVec hvalues hdata, Outcome.unwrap_ok]
    rfl⟩

/-- Everything that changes the protocol value keeps `I`, and under `I` a party whose turn
it is can send. -/
structure Protocol.Fluent (P : Protocol σ μ) (S : SerdeCbor) (api : Api σ) (I : σ → Prop) :
    Prop where
  setup : ∀ {s setup finish}, api.calls s setup finish → I s → I (setup s)
  finish : ∀ {s setup finish}, api.calls s setup finish → ∀ t, I t → I (finish t)
  asides : ∀ {s t}, api.asides s t → I s → I t
  send : ∀ s, I s → I (P.send s).2
  recv : ∀ s m, I s → I (P.recv s m).2
  sends : ∀ {s}, I s → P.agency s = P.role s → P.Sends S s

theorem Protocol.Fluent.effect (hP : P.Fluent S api I) {s : Session σ μ} {a : Action} {proto : σ}
    {finish : σ → σ} (h : Effect P api s a proto finish) (hvalue : I s.party.proto)
    (hfinish : ∀ t, I t → I (s.finish t)) : I proto ∧ ∀ t, I t → I (finish t) := by
  cases h with
  | quiet _ => exact ⟨hvalue, hfinish⟩
  | enter hcalls => exact ⟨hP.setup hcalls hvalue, hP.finish hcalls⟩
  | aside hasides => exact ⟨hP.asides hasides hvalue, hfinish⟩
  | leave _ => exact ⟨hfinish _ hvalue, hfinish⟩
  | deliver ms _ => exact ⟨Protocol.deliver_keeps hP.recv ms hvalue, hfinish⟩
  | send _ _ _ hsend =>
      have hsent := hP.send _ hvalue
      rw [hsend] at hsent
      exact ⟨hsent, hfinish⟩

namespace Session

variable {s s' : Session σ μ} {a : Action}

/-- The invariant of a session: `I`, and a message that has been made can be written. -/
structure Flows (P : Protocol σ μ) (S : SerdeCbor) (I : σ → Prop) (s : Session σ μ) : Prop where
  value : I s.party.proto
  finish : ∀ t, I t → I (s.finish t)
  made : ∀ m, s.position = .made m → ∃ data, P.toBytes S m = .ok data

namespace Flows

/-- A message is made in a turn, of what `send` returns. -/
theorem made_of_does (hP : P.Fluent S api I) (h : s.Flows P S I) (hdoes : Does P S api s a s')
    (m : μ) (hmade : s'.position = .made m) : ∃ data, P.toBytes S m = .ok data := by
  cases hdoes with
  | arrive payload => exact h.made m hmade
  | aside hposition _ => exact h.made m hmade
  | send _ _ hrole hsend =>
      cases hmade
      obtain ⟨m', t, values, data, hsend', hvalues, hdata⟩ := hP.sends h.value hrole
      cases hsend.symm.trans hsend'
      exact ⟨data, Protocol.toBytes_of_toVec hvalues hdata⟩
  | _ => cases hmade

/-- **The step lemma.** -/
theorem does (hP : P.Fluent S api I) (h : s.Flows P S I) (hdoes : Does P S api s a s') :
    s'.Flows P S I := by
  obtain ⟨hvalue, hfinish⟩ := hP.effect hdoes.effect h.value h.finish
  exact ⟨hvalue, hfinish, h.made_of_does hP hdoes⟩

/-- **The run lemma.** -/
theorem run (hP : P.Fluent S api I) (h : s.Flows P S I)
    (hrun : Run P S api (fun _ _ => True) s s') : s'.Flows P S I := by
  refine Transition.invariant (fun s s' hs hstep => ?_) hrun h
  obtain ⟨a, -, hdoes⟩ := hstep
  exact hs.does hP hdoes

theorem not_refuse (hP : P.Fluent S api I) (h : s.Flows P S I) :
    ¬ Does P S api s .refuse s' := by
  intro hdoes
  cases hdoes with
  | refuse _ _ hrole hsend hr =>
      obtain ⟨m, t, values, data, hsend', -⟩ := hP.sends h.value hrole
      cases hsend.symm.trans hsend'
      exact hr m rfl

theorem not_garble (h : s.Flows P S I) : ¬ Does P S api s .garble s' := by
  intro hdoes
  cases hdoes with
  | garble hposition hdata =>
      obtain ⟨data, hdata'⟩ := h.made _ hposition
      exact hdata data hdata'

end Flows

end Session

/-- In every run that begins with `p`, whatever the peer sends and whichever calls are made
or dropped: when `execute` finds that it is the party's turn, `send_bytes` succeeds, and no
step is taken in which one of its unwraps fails. -/
def SendsSafely (P : Protocol σ μ) (S : SerdeCbor) (api : Api σ) (p : Party σ μ) : Prop :=
  ∀ before s, Run P S api (fun _ _ => True) (start p before) s →
    (s.position = .loop → P.agency s.party.proto = P.role s.party.proto →
      P.Sends S s.party.proto ∧ ∃ data p', s.party.sendBytes P S = (.ok data, p')) ∧
    ∀ s', ¬ Does P S api s .refuse s' ∧ ¬ Does P S api s .garble s'

theorem sendsSafely (hP : P.Fluent S api I) {p : Party σ μ} (hp : I p.proto) :
    SendsSafely P S api p := by
  intro before s hrun
  have hstart : (start p before).Flows P S I :=
    ⟨hp, fun _ ht => ht, fun m hmade => by cases hmade⟩
  have h : s.Flows P S I := hstart.run hP hrun
  refine ⟨fun _ hrole => ?_, fun s' => ⟨h.not_refuse hP, h.not_garble⟩⟩
  have hsends := hP.sends h.value hrole
  exact ⟨hsends, hsends.sendBytes⟩

end

/-! ### The three protocols -/

namespace Chainsync

/-- A client whose turn it is has a query and is idle. -/
theorem idle_of_turn {s : ChainSync} (h : s.agency = s.role) :
    s.state = .idle ∧ ∃ query, s.query = some query := by
  obtain ⟨query, intersect, reply, state⟩ := s
  cases query with
  | none => cases h
  | some query =>
      cases state with
      | idle => exact ⟨rfl, query, rfl⟩
      | _ => cases h

theorem fluent {S : SerdeCbor} (hS : S.Lawful) (blake2b : Bytes → Bytes) :
    (protocol S blake2b).Fluent S api fun _ => True where
  setup _ _ := trivial
  finish _ _ _ := trivial
  asides _ _ := trivial
  send _ _ := trivial
  recv _ _ _ := trivial
  sends {s} _ hrole := by
    obtain ⟨hidle, query, hquery⟩ := idle_of_turn hrole
    obtain ⟨m, t, hsend⟩ : ∃ m t, s.send = (.ok m, t) := by
      cases query <;> simp [ChainSync.send, hidle, hquery]
    obtain ⟨data, hdata⟩ := hS.toVec_ok _ m.plain_toValues
    exact ⟨m, t, _, data, hsend, rfl, hdata⟩

end Chainsync

namespace Blockfetch

theorem fluent {S : SerdeCbor} (hS : S.Lawful) : protocol.Fluent S api fun _ => True where
  setup _ _ := trivial
  finish _ _ _ := trivial
  asides _ _ := trivial
  send _ _ := trivial
  recv _ _ _ := trivial
  sends {s} _ hrole := by
    obtain ⟨-, hidle⟩ := BlockFetch.idle_of_turn hrole
    obtain ⟨m, t, hsend⟩ : ∃ m t, s.send = (.ok m, t) := by
      cases hdone : s.done <;> simp [BlockFetch.send, hidle, hdone]
    obtain ⟨data, hdata⟩ := hS.toVec_ok _ m.plain_toValues
    exact ⟨m, t, _, data, hsend, rfl, hdata⟩

end Blockfetch

namespace Handshake

/-- What `builder` and its settings make. -/
inductive HandshakeBuilder.Made : HandshakeBuilder → Prop
  | builder : Made builder
  | networkMagic {b : HandshakeBuilder} (magic : UInt32) : Made b → Made (b.networkMagic magic)
  | nodeToNode {b : HandshakeBuilder} : Made b → Made b.nodeToNode
  | clientToNode {b : HandshakeBuilder} : Made b → Made b.clientToNode

/-- There is a version, and all versions are supported. -/
def Speakable (versions : List Version) : Prop := versions ≠ [] ∧ ∀ v ∈ versions, v.Supported

theorem HandshakeBuilder.Made.speakable {b : HandshakeBuilder} (h : b.Made) :
    Speakable b.versions := by
  induction h with
  | builder => simp [Speakable, Handshake.builder, Version.Supported]
  | networkMagic magic _ ih => exact ih
  | nodeToNode _ _ => simp [Speakable, HandshakeBuilder.nodeToNode, Version.Supported]
  | clientToNode _ _ => simp [Speakable, HandshakeBuilder.clientToNode, Version.Supported]

/-- The role is that of a client or a server, and the versions can be sent. -/
def Able (s : Handshake) : Prop := s.role ≠ .none ∧ Speakable s.versions

theorem Able.congr {s t : Handshake} (h : Able s)
    (ht : t.role = s.role ∧ t.versions = s.versions) : Able t := by
  rwa [Able, ht.1, ht.2]

theorem fluent {S : SerdeCbor} (hS : S.Lawful) : (protocol S).Fluent S api Able where
  setup hcalls hs := by
    obtain ⟨rfl, -⟩ := hcalls
    exact hs
  finish hcalls t ht := by
    obtain ⟨-, rfl⟩ := hcalls
    exact ht
  asides h := h.elim
  send s hs := hs.congr (send_config s)
  recv s m hs := hs.congr (recv_config s m)
  sends {s} hs hrole := by
    obtain ⟨hnone, hne, hsupported⟩ := hs
    cases hstate : s.state with
    | propose =>
        have hsend : s.send = (.ok (.proposeVersions (s.versions.map fun v => (v, s.networkMagic))),
            { s with state := .confirm }) := by
          simp only [Handshake.send, hstate]
        obtain ⟨values, read, hvalues, hplain, -⟩ :=
          Message.toValues_proposeVersions hS hsupported s.networkMagic
        obtain ⟨data, hdata⟩ := hS.toVec_ok values hplain
        exact ⟨_, _, values, data, hsend, hvalues, hdata⟩
    | confirm =>
        obtain ⟨v, hlast⟩ : ∃ v, s.versions.getLast? = some v :=
          ⟨_, List.getLast?_eq_some_getLast hne⟩
        have hsend : s.send = (.ok (.acceptVersion v s.networkMagic),
            { s with state := .done, version := some v }) := by
          simp only [Handshake.send, hstate, hlast]
        have hv := hsupported v (List.mem_of_getLast? hlast)
        obtain ⟨values, hvalues, hplain, -⟩ :=
          Message.toValues_acceptVersion (S := S) hv.short s.networkMagic
        obtain ⟨data, hdata⟩ := hS.toVec_ok values hplain
        exact ⟨_, _, values, data, hsend, hvalues, hdata⟩
    | done =>
        -- it is nobody's turn, and every role is somebody's
        have hagency : s.agency = .none := by simp only [Handshake.agency, hstate]
        exact absurd (hrole.symm.trans hagency) hnone

end Handshake

/-- **The sending side cannot panic.** Every handshake of a builder, in either role, every
chain-sync client and every block-fetch client sends whenever it is its turn. -/
theorem sending_never_panics {S : SerdeCbor} (hS : S.Lawful) (blake2b : Bytes → Bytes) :
    (∀ b role p, Handshake.HandshakeBuilder.Made b → b.build role = .ok p →
      SendsSafely (Handshake.protocol S) S Handshake.api p) ∧
    SendsSafely (Chainsync.protocol S blake2b) S Chainsync.api Chainsync.client ∧
    ∀ b p, Blockfetch.Builder.client b = .ok p →
      SendsSafely Blockfetch.protocol S Blockfetch.api p := by
  refine ⟨fun b role p hb hp => ?_, ?_, fun b p _ => ?_⟩
  · apply sendsSafely (Handshake.fluent hS)
    cases role with
    | none => cases hp
    | client =>
        cases hp
        exact ⟨by simp, hb.speakable⟩
    | server =>
        cases hp
        exact ⟨by simp, hb.speakable⟩
  · exact sendsSafely (Chainsync.fluent hS blake2b) trivial
  · exact sendsSafely (Blockfetch.fluent hS) trivial

open Handshake in
/-- A client of a node begins to negotiate. -/
theorem sending_never_panics_clientToNode : ∃ p s data p',
    (builder.clientToNode.networkMagic 764824073).client = .ok p ∧
      Run (protocol Cbor.serdeCbor) Cbor.serdeCbor api (fun _ _ => True) (start p []) s ∧
      s.position = .loop ∧
      s.party.sendBytes (protocol Cbor.serdeCbor) Cbor.serdeCbor = (.ok data, p') := by
  have hmade : (builder.clientToNode.networkMagic 764824073).Made :=
    .networkMagic _ (.clientToNode .builder)
  obtain ⟨p, hp⟩ : ∃ p, (builder.clientToNode.networkMagic 764824073).client = .ok p := ⟨_, rfl⟩
  have hsafe := (sending_never_panics Cbor.serdeCbor_lawful id).1 _ .client p hmade hp
  have hrun : Run (protocol Cbor.serdeCbor) Cbor.serdeCbor api (fun _ _ => True) (start p []) _ :=
    .single ⟨.enter, trivial, .enter rfl ⟨rfl, rfl⟩⟩
  have hrole : p.proto.agency = p.proto.role := by
    cases hp
    rfl
  obtain ⟨-, data, p', hdata⟩ := (hsafe [] _ hrun).1 rfl hrole
  exact ⟨p, _, data, p', hp, hrun, rfl, hdata⟩

end Ouroboros
