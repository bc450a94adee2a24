import Ouroboros.Protocols.HandshakeAgreement

/-!
How `negotiate` ends for a client, by the answer of the server.

The server's answer is one message, which arrives in any number of payloads. A refusal
and a version that was not proposed end in an error. An answer with another magic, and
a proposal in place of an answer, end in a panic.
-/

namespace Ouroboros.Handshake

open Streaming

variable {S : SerdeCbor} {b : HandshakeBuilder} {p : Party Handshake Message} {m : Message}
  {w : Bytes}

/-- What is expected of `negotiate`: the version and magic of an acceptance that is to
the client's liking, and an error for every other answer. -/
structure Concludes (b : HandshakeBuilder) (m : Message) (x : Exit (Version × UInt32)) :
    Prop where
  ok : ∀ v magic, x = .ok (v, magic) ↔
    m = .acceptVersion v magic ∧ v ∈ b.versions ∧ magic = b.magic
  err : (∀ v magic, x ≠ .ok (v, magic)) → ∃ e, x = .err e

theorem not_concludes_panic (e : Error) : ¬ Concludes b m (.panic e) := by
  intro h
  obtain ⟨e', he⟩ := h.err (by simp)
  cases he

theorem Concludes.of_err (e : Error)
    (h : ∀ v, m = .acceptVersion v b.magic → v ∉ b.versions) : Concludes b m (.err e) where
  ok v magic := by
    refine iff_of_false (by simp) ?_
    rintro ⟨hm, hv, rfl⟩
    exact h v hm hv
  err _ := ⟨e, rfl⟩

/-! ### The proposal -/

/-- Only supported versions can be written. -/
theorem Version.supported_of_toValues {v : Version} {magic : UInt32} {entry : Value × Value}
    (h : v.toValues magic = .ok entry) : v.Supported := by
  cases v with
  | n2n v =>
      simp only [toValues] at h
      split_ifs at h with h₃ h₇
      · exact ⟨h₃.1, by omega⟩
      · exact ⟨by omega, h₇.2⟩
  | c2n v =>
      simp only [toValues] at h
      split_ifs at h with h₉
      exact h₉

theorem supported_of_toBytes {magic : UInt32}
    (h : (protocol S).toBytes S (.proposeVersions (b.versions.map fun v => (v, magic))) = .ok w) :
    ∀ v ∈ b.versions, v.Supported := by
  intro v hv
  obtain ⟨values, hvalues, -⟩ := Outcome.bind_ok_iff.mp h
  obtain ⟨entries, hentries, -⟩ := Outcome.bind_ok_iff.mp hvalues
  rw [Outcome.mapM_ok_iff, List.forall₂_map_left_iff] at hentries
  obtain ⟨k, hk, rfl⟩ := List.getElem_of_mem hv
  have hentry := hentries.get hk (hentries.length_eq ▸ hk)
  cases hto : (b.versions[k]).toValues magic with
  | ok entry => exact Version.supported_of_toValues hto
  | err e =>
      simp only [List.get_eq_getElem, hto, Outcome.unwrap_err, reduceCtorEq] at hentry
  | panic e =>
      simp only [List.get_eq_getElem, hto, Outcome.unwrap_panic, reduceCtorEq] at hentry

/-- The client before it asks, with the payloads of the answer on their way. -/
structure Ready (b : HandshakeBuilder) (w : Bytes) (p : Party Handshake Message) : Prop where
  proto : p.proto = b.asking .propose none
  bytes : p.channel.bytes = []
  receiver : p.channel.receiver.flatten = w

theorem ready_client (hp : b.client = .ok p) {payloads : List Bytes} (hw : payloads.flatten = w) :
    Ready b w (p.arrive payloads) := by
  cases hp
  exact ⟨rfl, rfl, hw⟩

/-- A client whose versions cannot be written panics. -/
theorem Ready.unsupported (h : Ready b w p) (hb : ¬ ∀ v ∈ b.versions, v.Supported) :
    ∃ e, (negotiate S p).1 = .panic e := by
  have hnone : (protocol S).agency p.proto ≠ .none := by simp [h.proto]
  have hrole : (protocol S).agency p.proto = (protocol S).role p.proto := by simp [h.proto]
  rcases Party.turn_send_cases (S := S) hnone hrole with ⟨p', -, hturned⟩ | ⟨e, p', hturn, -⟩
  · cases hturned with
    | recv _ hrole' => exact absurd hrole hrole'
    | send _ _ hsend hdata =>
        rw [h.proto] at hsend
        cases hsend
        exact absurd (supported_of_toBytes hdata) hb
  · exact ⟨e, by rw [negotiate_of_panic rfl hturn]⟩

/-- Otherwise it asks, and reads until a payload completes the answer. -/
theorem Ready.answered (hS : S.Lawful) (h : Ready b w p) (hb : ∀ v ∈ b.versions, v.Supported)
    (hm : (protocol S).Encoded S m w) :
    ∃ p' q qs tail, Party.execute (protocol S) S p = Party.execute (protocol S) S p' ∧
      p'.proto = b.asking .confirm none ∧ p'.channel.receiver = q :: qs ∧
      ((protocol S).decoder S).feed p'.channel.bytes q = ([m], tail) ∧ ∀ e, tail ≠ .fail e := by
  obtain ⟨values, -, hvalues, hplain, -⟩ := Message.toValues_proposeVersions hS hb b.magic
  obtain ⟨proposal, hproposal⟩ := hS.toVec_ok values hplain
  have hnone : (protocol S).agency p.proto ≠ .none := by simp [h.proto]
  have hrole : (protocol S).agency p.proto = (protocol S).role p.proto := by simp [h.proto]
  have hsend : (protocol S).send p.proto =
      (.ok (.proposeVersions (b.versions.map fun v => (v, b.magic))), b.asking .confirm none) := by
    rw [h.proto]
    rfl
  have hdata : (protocol S).toBytes S (.proposeVersions (b.versions.map fun v => (v, b.magic))) =
      .ok proposal := by
    simp [Protocol.toBytes, protocol, hvalues, hproposal]
  have hturn := Party.turn_send_ok hnone hrole hsend hdata
  have hfed : Party.Fed (protocol S) S p.handed [(m, w)] [] [(m, w)]
      (p.afterSend (b.asking .confirm none)
        (.proposeVersions (b.versions.map fun v => (v, b.magic))) proposal) := by
    refine Party.Fed.afterSend ⟨⟨[], rfl, by simp⟩, ?_, ?_, ?_, ?_⟩ _ _ _
    · rw [h.bytes]
      exact hm.codeword.partial_nil
    · exact hm.codeword.partial_nil
    · exact Protocol.coded_of_encoded (List.forall_mem_singleton.mpr hm)
    · simp [h.bytes, h.receiver]
  obtain ⟨p', q, qs, done, todo, carry, htodo, hexecute, hproto, hq, hfeed⟩ :=
    hfed.opening (by simp [Party.afterSend]) (by simp [Party.afterSend])
  obtain ⟨rfl, -⟩ := List.append_eq_nil_iff.mp htodo.symm
  refine ⟨p', q, qs, .ofCarry carry, ?_, hproto, hq, hfeed, by cases carry <;> simp [Tail.ofCarry]⟩
  rw [Party.execute_next hturn, hexecute]

/-! ### The answer -/

theorem find_version_some {versions : List Version} {v v' : Version}
    (h : versions.find? (· = v) = some v') : v' = v ∧ v ∈ versions := by
  have heq : v' = v := by simpa using List.find?_some h
  exact ⟨heq, heq ▸ List.mem_of_find?_eq_some h⟩

theorem Concludes.of_refuse (hm : m = .refuse) (e : Error) : Concludes b m (.err e) :=
  .of_err e fun _ haccept => by cases hm.symm.trans haccept

/-- An acceptance with the client's magic ends as it should. -/
theorem Concludes.of_accept {v : Version} (hm : m = .acceptVersion v b.magic) :
    Concludes b m (match b.versions.find? (· = v) with
      | some v => .ok (v, b.magic)
      | none => .err (.text "Handshake failed.")) := by
  subst hm
  cases hfind : b.versions.find? (· = v) with
  | some v' =>
      obtain ⟨rfl, hv⟩ := find_version_some hfind
      refine ⟨fun w magic => ⟨fun heq => ?_, ?_⟩, fun hne => absurd rfl (hne v' b.magic)⟩
      · cases heq
        exact ⟨rfl, hv, rfl⟩
      · rintro ⟨heq, -, -⟩
        cases heq
        rfl
  | none =>
      refine .of_err _ fun w heq hw => ?_
      cases heq
      rw [find_version hw] at hfind
      cases hfind

/-- The answers that `recv` takes. -/
def Taken (b : HandshakeBuilder) (m : Message) : Prop :=
  m = .refuse ∨ ∃ v, m = .acceptVersion v b.magic

theorem recv_taken (h : Taken b m) :
    ∃ version, (protocol S).deliver [m] (b.asking .confirm none) =
      (.ok (), b.asking .done version) ∧
      Concludes b m (match version with
        | some v => .ok (v, b.magic)
        | none => .err (.text "Handshake failed.")) := by
  rcases h with rfl | ⟨v, rfl⟩
  · exact ⟨none, rfl, .of_refuse rfl _⟩
  · refine ⟨b.versions.find? (· = v), ?_, .of_accept rfl⟩
    simp [protocol, Protocol.deliver, Handshake.recv, HandshakeBuilder.asking]

theorem recv_panic (h : ¬ Taken b m) :
    ∃ e, ((protocol S).deliver [m] (b.asking .confirm none)).1 = .panic e := by
  cases m with
  | proposeVersions versions =>
      simp [protocol, Protocol.deliver, Handshake.recv, HandshakeBuilder.asking]
  | refuse => exact absurd (.inl rfl) h
  | acceptVersion v magic =>
      have hne : magic ≠ b.magic := by
        rintro rfl
        exact h (.inr ⟨v, rfl⟩)
      simp [protocol, Protocol.deliver, Handshake.recv, HandshakeBuilder.asking, hne]

theorem Ready.taken (hS : S.Lawful) (h : Ready b w p) (hb : ∀ v ∈ b.versions, v.Supported)
    (hm : (protocol S).Encoded S m w) (htaken : Taken b m) : Concludes b m (negotiate S p).1 := by
  obtain ⟨p', q, qs, tail, hexecute, hproto, hq, hfeed, htail⟩ := h.answered hS hb hm
  obtain ⟨version, hdeliver, hconcludes⟩ := recv_taken (S := S) htaken
  rw [← hproto] at hdeliver
  have hturn := Party.turn_recv_ok (by simp [hproto]) (by simp [hproto]) hq hfeed hdeliver htail
  have hafter : (p'.afterRecv (protocol S) [m] qs tail.carry).proto =
      b.asking .done version := by
    simp [Party.afterRecv, Party.delivered, hdeliver]
  rw [negotiate_of_stop (hexecute.trans (Party.execute_next hturn)) (by rw [hafter]; rfl), hafter]
  cases version <;> exact hconcludes

theorem Ready.untaken (hS : S.Lawful) (h : Ready b w p) (hb : ∀ v ∈ b.versions, v.Supported)
    (hm : (protocol S).Encoded S m w) (htaken : ¬ Taken b m) :
    ∃ e, (negotiate S p).1 = .panic e := by
  obtain ⟨p', q, qs, tail, hexecute, hproto, hq, hfeed, -⟩ := h.answered hS hb hm
  have hpanic := recv_panic (S := S) htaken
  rw [← hproto] at hpanic
  obtain ⟨e, hturn⟩ := Party.turn_recv_panic (by simp [hproto]) (by simp [hproto]) hq hfeed
    (.inl hpanic)
  exact ⟨e, by rw [negotiate_of_panic hexecute hturn]⟩

/-- A client reports the answer as it should exactly if it can write its proposal and
the answer is a refusal or an acceptance with its own magic. -/
theorem client_outcome_iff (hS : S.Lawful) (hp : b.client = .ok p)
    (hm : (protocol S).Encoded S m w) {payloads : List Bytes} (hw : payloads.flatten = w) :
    Concludes b m (negotiate S (p.arrive payloads)).1 ↔
      (∀ v ∈ b.versions, v.Supported) ∧ (m = .refuse ∨ ∃ v, m = .acceptVersion v b.magic) := by
  have hready := ready_client hp hw
  refine ⟨fun hconcludes => ?_, fun ⟨hb, htaken⟩ => hready.taken hS hb hm htaken⟩
  have hpanic : ¬ ∃ e, (negotiate S (p.arrive payloads)).1 = .panic e := by
    rintro ⟨e, he⟩
    exact not_concludes_panic e (he ▸ hconcludes)
  have hb : ∀ v ∈ b.versions, v.Supported := by
    by_contra hb
    exact hpanic (hready.unsupported hb)
  refine ⟨hb, ?_⟩
  by_contra htaken
  exact hpanic (hready.untaken hS hb hm htaken)

/-- An acceptance of version 7 by a server with the given magic. -/
theorem encoded_acceptance {w : Bytes} (magic : UInt32)
    (hw : Cbor.serdeCbor.toVec [.integer 1, .integer 7,
      .array [.integer magic.toNat, .bool false]] = .ok w) :
    (protocol Cbor.serdeCbor).Encoded Cbor.serdeCbor (.acceptVersion (.n2n 7) magic) w := by
  obtain ⟨values, hvalues, hplain, hread⟩ := Message.toValues_acceptVersion
    (S := Cbor.serdeCbor) (v := .n2n 7) ⟨by decide, by decide⟩ magic
  cases hvalues
  exact Protocol.encoded_of_toVec Cbor.serdeCbor_lawful hplain hw hread

theorem client_outcome_accepted :
    ∃ p, builder.client = .ok p ∧ Concludes builder (.acceptVersion (.n2n 7) 0)
      (negotiate Cbor.serdeCbor (p.arrive [[0x83, 1, 7, 0x82], [0, 0xf4]])).1 :=
  ⟨_, rfl, (client_outcome_iff Cbor.serdeCbor_lawful rfl (encoded_acceptance 0 rfl) rfl).mpr
    ⟨by simp [builder, Version.Supported], .inr ⟨_, rfl⟩⟩⟩

/-- An acceptance with another magic makes the client panic. -/
theorem magic_panics :
    ∃ p, builder.client = .ok p ∧ ¬ Concludes builder (.acceptVersion (.n2n 7) 1)
      (negotiate Cbor.serdeCbor (p.arrive [[0x83, 1, 7, 0x82, 1, 0xf4]])).1 := by
  have hm := encoded_acceptance 1 (w := [0x83, 1, 7, 0x82, 1, 0xf4]) rfl
  have htaken : ¬ Taken builder (.acceptVersion (.n2n 7) 1) := by simp [Taken, builder]
  have hpayload : ([[0x83, 1, 7, 0x82, 1, 0xf4]] : List Bytes).flatten =
      [0x83, 1, 7, 0x82, 1, 0xf4] := rfl
  refine ⟨_, rfl, fun hconcludes => ?_⟩
  obtain ⟨e, he⟩ := (ready_client (b := builder) rfl hpayload).untaken Cbor.serdeCbor_lawful
    (by simp [builder, Version.Supported]) hm htaken
  exact not_concludes_panic e (he ▸ hconcludes)

end Ouroboros.Handshake
