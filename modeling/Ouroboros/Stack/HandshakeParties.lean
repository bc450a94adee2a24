import Ouroboros.Protocols.Delivery
import Ouroboros.Protocols.HandshakeAgreement
import Ouroboros.Protocols.Proposals
import Ouroboros.SerdeCbor.Size
import Ouroboros.Stack.Link

/-!
What the parties of a handshake send, over an ideal transport: one proposal and one
answer. There are sixteen supported versions, so both fit a frame whatever the
configurations are.
-/

set_option linter.dupNamespace false

namespace Ouroboros

open Relation

namespace Handshake

variable {S : SerdeCbor} {bc bs : HandshakeBuilder} {v : Version} {proposal answer : Bytes}
  {client server p : Party Handshake Message} {n n' : Network Handshake Message} {delivered : Bytes}

theorem coherent_run (hw : Wire S bc bs v proposal answer) (hclient : bc.client = .ok client)
    (hserver : bs.server = .ok server)
    (hrun : ReflTransGen (Network.Step (protocol S) S) ⟨client, server, [], []⟩ n) :
    Coherent bc bs v proposal answer n := by
  refine Transition.invariant (fun a b ha hab => (ha.step hw hab).1) hrun ?_
  cases hclient
  cases hserver
  obtain ⟨versions, hread⟩ := hw.read
  have hproposal : proposal ≠ [] := hread.codeword.ne_nil
  refine ⟨.asking rfl rfl, .waiting rfl rfl ⟨rfl, List.nil_prefix, hproposal.symm, ?_⟩,
    List.nil_prefix, List.nil_prefix⟩
  simp [Channel.open]

theorem ClientAt.of_mem_sent (h : ClientAt bc bs v proposal answer p delivered) {w : Bytes}
    (hw : w ∈ p.channel.sent) : w = proposal := by
  cases h with
  | asking _ hchannel => simp [hchannel, Channel.open] at hw
  | waiting _ hsent _ => simpa [hsent] using hw
  | finished _ _ hsent _ => simpa [hsent] using hw

theorem ServerAt.of_mem_sent (h : ServerAt bs v proposal answer p delivered) {w : Bytes}
    (hw : w ∈ p.channel.sent) : w = answer := by
  cases h with
  | waiting _ hsent _ => simp [hsent] at hw
  | answering _ hsent _ => simp [hsent] at hw
  | finished _ hsent _ => simpa [hsent] using hw

/-- The proposal and the answer fit their frames. -/
theorem Coherent.fits (h : Coherent bc bs v proposal answer n)
    (hw : Wire S bc bs v proposal answer) (hproposal : proposal.length ≤ 65535)
    (hanswer : answer.length ≤ 65535) : Mux.Link.Fits n := by
  obtain ⟨versions, hread⟩ := hw.read
  intro w hw'
  rcases List.mem_append.mp hw' with hw' | hw'
  · rw [h.client.of_mem_sent hw']
    exact ⟨hread.codeword.ne_nil, hproposal⟩
  · rw [h.server.of_mem_sent hw']
    exact ⟨hw.answerRead.codeword.ne_nil, hanswer⟩

/-- The only message of the client is its proposal, and that of the server its answer. -/
structure Told (bc bs : HandshakeBuilder) (v : Version) (n : Network Handshake Message) : Prop where
  client : ∀ m ∈ n.client.told, m = .proposeVersions (bc.versions.map fun v => (v, bc.magic))
  server : ∀ m ∈ n.server.told, m = .acceptVersion v bs.magic

theorem ClientAt.told_turned {p' : Party Handshake Message}
    (h : ClientAt bc bs v proposal answer p delivered) (ht : Party.Turned (protocol S) S p p')
    (htold : ∀ m ∈ p.told, m = .proposeVersions (bc.versions.map fun v => (v, bc.magic))) :
    ∀ m ∈ p'.told, m = .proposeVersions (bc.versions.map fun v => (v, bc.magic)) := by
  cases ht with
  | recv _ _ _ _ _ _ =>
      rw [Party.told_afterRecv]
      exact htold
  | send hnone hrole hsend _ =>
      rw [Party.told_afterSend, List.forall_mem_append, List.forall_mem_singleton]
      refine ⟨htold, ?_⟩
      cases h with
      | asking hproto _ =>
          rw [hproto] at hsend
          cases hsend
          rfl
      | waiting hproto _ _ =>
          rw [hproto] at hrole
          cases hrole
      | finished _ hproto _ _ =>
          rw [hproto] at hnone
          exact absurd rfl hnone

theorem ServerAt.told_turned {p' : Party Handshake Message} (hw : Wire S bc bs v proposal answer)
    (h : ServerAt bs v proposal answer p delivered) (ht : Party.Turned (protocol S) S p p')
    (htold : ∀ m ∈ p.told, m = .acceptVersion v bs.magic) :
    ∀ m ∈ p'.told, m = .acceptVersion v bs.magic := by
  cases ht with
  | recv _ _ _ _ _ _ =>
      rw [Party.told_afterRecv]
      exact htold
  | send hnone hrole hsend _ =>
      rw [Party.told_afterSend, List.forall_mem_append, List.forall_mem_singleton]
      refine ⟨htold, ?_⟩
      cases h with
      | waiting hproto _ _ =>
          rw [hproto] at hrole
          cases hrole
      | answering hproto _ _ =>
          rw [hproto] at hsend
          simp only [protocol, Handshake.send, HandshakeBuilder.serving, hw.last] at hsend
          cases hsend
          rfl
      | finished hproto _ _ =>
          rw [hproto] at hnone
          exact absurd rfl hnone

theorem told_run (hw : Wire S bc bs v proposal answer) (hclient : bc.client = .ok client)
    (hserver : bs.server = .ok server)
    (hrun : ReflTransGen (Network.Step (protocol S) S) ⟨client, server, [], []⟩ n) :
    Told bc bs v n := by
  induction hrun with
  | refl =>
      cases hclient
      cases hserver
      exact ⟨by simp [Party.told], by simp [Party.told]⟩
  | tail hrun hstep ih =>
      have h := coherent_run hw hclient hserver hrun
      cases hstep with
      | client hturn =>
          exact ⟨h.client.told_turned (Party.turned_of_next hturn) ih.client, ih.server⟩
      | server hturn =>
          exact ⟨ih.client, h.server.told_turned hw (Party.turned_of_next hturn) ih.server⟩
      | toServer _ _ => exact ⟨ih.client, ih.server⟩
      | toClient _ _ => exact ⟨ih.client, ih.server⟩

/-- Both messages can be read. -/
theorem Told.readable (h : Told bc bs v n) (hw : Wire S bc bs v proposal answer) :
    Network.Readable (protocol S) S n := by
  intro m hm
  rcases List.mem_append.mp hm with hm | hm
  · obtain ⟨versions, hread⟩ := hw.read
    rw [h.client m hm]
    exact ⟨_, proposal, hw.sent, hread⟩
  · rw [h.server m hm]
    exact ⟨_, answer, hw.answerSent, hw.answerRead⟩

/-! ### Sizes -/

open KeyedList

theorem Version.size_entry (v : Version × UInt32) :
    (Version.entry v).1.size + (Version.entry v).2.size ≤ 36 := by
  obtain ⟨v, magic⟩ := v
  simp only [entry, Value.size]
  cases v with
  | n2n v =>
      simp only [toValues]
      split_ifs <;> simp [Value.size, Value.sizeItems]
  | c2n v =>
      simp only [toValues]
      split_ifs <;> simp [Value.size]

/-- The numbers of the supported versions. -/
def Version.numbers : List ℕ := List.range' 1 7 ++ List.range' 0x8001 9

theorem Version.number_mem {v : Version} (h : v.Supported) : v.number ∈ Version.numbers := by
  cases v with
  | n2n v =>
      obtain ⟨hlo, hhi⟩ := h
      interval_cases v <;> decide
  | c2n v =>
      obtain ⟨hlo, hhi⟩ := h
      interval_cases v <;> decide

/-- A map of supported versions has sixteen entries at most. -/
theorem length_ofList {versions : List (Version × UInt32)} (h : ∀ v ∈ versions, v.1.Supported) :
    (ofList Message.key versions).length ≤ 16 := by
  have hnodup : ((ofList Message.key versions).map Message.key).Nodup :=
    List.pairwise_map.mpr ((ascending_ofList versions).imp fun h => h.ne)
  have hsubset : (ofList Message.key versions).map Message.key ⊆ Version.numbers := by
    intro k hk
    obtain ⟨v, hv, rfl⟩ := List.mem_map.mp hk
    exact Version.number_mem (Message.supported_ofList h v hv)
  have hlen := (hnodup.subperm hsubset).length_le
  rwa [List.length_map] at hlen

theorem length_toBytes {m : Message} {values : List Value} {w : Bytes} (hcompact : S.Compact)
    (hvalues : m.toValues S = .ok values) (hplain : Plain values)
    (hsize : (Value.array values).size ≤ 65535) (hw : (protocol S).toBytes S m = .ok w) :
    w.length ≤ 65535 := by
  have hvec : (Outcome.ofExcept (S.toVec values)).unwrap = .ok w := by
    simpa [Protocol.toBytes, protocol, hvalues] using hw
  cases htoVec : S.toVec values with
  | error e => simp [htoVec, Outcome.ofExcept] at hvec
  | ok b =>
      simp only [htoVec, Outcome.ofExcept_ok, Outcome.unwrap_ok, Outcome.ok.injEq] at hvec
      have hlen := hcompact values b hplain htoVec (by omega)
      rw [← hvec]
      omega

/-- Both messages fit a frame. -/
theorem Wire.lengths (hS : S.Lawful) (hcompact : S.Compact) (hw : Wire S bc bs v proposal answer)
    (hc : ∀ v ∈ bc.versions, v.Supported) (hs : ∀ v ∈ bs.versions, v.Supported) :
    proposal.length ≤ 65535 ∧ answer.length ≤ 65535 := by
  constructor
  · have hsupported : ∀ v ∈ bc.versions.map fun v => (v, bc.magic), v.1.Supported := by
      simpa using hc
    obtain ⟨values, read, hvalues, hplain, -⟩ :=
      Message.toValues_proposeVersions hS hc bc.magic
    have hmap := hvalues.symm.trans (Message.toValues_versions hS hsupported)
    cases hmap
    refine length_toBytes hcompact hvalues hplain ?_ hw.sent
    have hlen := length_ofList hsupported
    have hentries : Value.sizeEntries ((ofList Message.key
        (bc.versions.map fun v => (v, bc.magic))).map Version.entry) ≤ 16 * 36 := by
      refine (Value.sizeEntries_le (n := 36) ?_).trans ?_
      · intro e he
        obtain ⟨v, -, rfl⟩ := List.mem_map.mp he
        exact Version.size_entry v
      · rw [List.length_map]
        omega
    simp only [Value.size, Value.sizeItems]
    omega
  · obtain ⟨values, hvalues, hplain, -⟩ := Message.toValues_acceptVersion (S := S)
      (hs v (List.mem_of_getLast? hw.last)).short bs.magic
    refine length_toBytes hcompact hvalues hplain ?_ hw.answerSent
    obtain ⟨n, hn, -⟩ := Version.fromU16_toU16 (hs v (List.mem_of_getLast? hw.last)).short
    simp only [Message.toValues, hn, Outcome.ok_bind, Outcome.pure_eq, Outcome.ok.injEq] at hvalues
    rw [← hvalues]
    simp [Value.size, Value.sizeItems]

/-- Whatever the configurations are, all that is sent can be carried and read. -/
theorem sound_run (hS : S.Lawful) (hcompact : S.Compact) (hc : ∀ v ∈ bc.versions, v.Supported)
    (hne : bs.versions ≠ []) (hs : ∀ v ∈ bs.versions, v.Supported)
    (hclient : bc.client = .ok client) (hserver : bs.server = .ok server)
    (hrun : ReflTransGen (Network.Step (protocol S) S) ⟨client, server, [], []⟩ n) :
    Mux.Link.Fits n ∧ Network.Readable (protocol S) S n := by
  obtain ⟨v, proposal, answer, hw⟩ := exists_wire hS hc hne hs
  obtain ⟨hproposal, hanswer⟩ := hw.lengths hS hcompact hc hs
  exact ⟨(coherent_run hw hclient hserver hrun).fits hw hproposal hanswer,
    (told_run hw hclient hserver hrun).readable hw⟩

/-- The builder's own configuration. -/
theorem supported_builder : ∀ v ∈ builder.versions, v.Supported := by
  simp [builder, Version.Supported]

theorem sound_builder (hclient : builder.client = .ok client)
    (hserver : builder.server = .ok server)
    (hrun : ReflTransGen (Network.Step (protocol Cbor.serdeCbor) Cbor.serdeCbor)
      ⟨client, server, [], []⟩ n) :
    Mux.Link.Fits n ∧ Network.Readable (protocol Cbor.serdeCbor) Cbor.serdeCbor n :=
  sound_run Cbor.serdeCbor_lawful Cbor.serdeCbor_compact supported_builder (by simp [builder])
    supported_builder hclient hserver hrun

theorem exists_encoded : ∃ w, (protocol Cbor.serdeCbor).Encoded Cbor.serdeCbor
    (.acceptVersion (.n2n 7) 0) w := by
  obtain ⟨v, proposal, answer, hw⟩ := exists_wire Cbor.serdeCbor_lawful supported_builder
    (by simp [builder]) supported_builder
  cases hw.last
  exact ⟨answer, hw.answerRead⟩

end Handshake

end Ouroboros
