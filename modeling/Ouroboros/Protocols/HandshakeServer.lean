import Ouroboros.Protocols.HandshakeCodec
import Ouroboros.Protocols.Conversation
import Ouroboros.SerdeCbor.Codec

/-!
The handshake server against any client.

Everything a server does is decided by the first payload that completes a
message. `recv` takes that message for a proposal whatever it is, and keeps
nothing of it; the messages behind it in the same payload are handed over in
the server's own turn, to the arm of `recv` that was written for the client.
`Verdict` lists the outcomes.
-/

set_option linter.dupNamespace false

namespace Ouroboros.Handshake

open Streaming

variable (S : SerdeCbor)

/-- The first payload that completes a message, or that cannot be parsed: its
messages and what follows them. -/
def firstBatch : Bytes → List Bytes → Option (List Message × Tail UInt8 Error)
  | _, [] => none
  | carry, payload :: payloads =>
    match ((protocol S).decoder S).feed carry payload with
    | ([], .done) => firstBatch [] payloads
    | ([], .more rest) => firstBatch rest payloads
    | (ms, tail) => some (ms, tail)

/-- What a server with the given versions and magic makes of its first batch: how
`negotiate` ends and what has been sent by then. -/
inductive Verdict (versions : List Version) (magic : UInt32) :
    List Message × Tail UInt8 Error → Exit (Version × UInt32) → List Bytes → Prop
  /-- The message is alone, and the server answers with its last version. -/
  | answered {m : Message} {tail : Tail UInt8 Error} {v : Version} {w : Bytes} :
      (∀ e, tail ≠ .fail e) → versions.getLast? = some v →
      (protocol S).toBytes S (.acceptVersion v magic) = .ok w →
      Verdict versions magic ([m], tail) (.ok (v, magic)) [w]
  /-- The message is alone, but the last version is missing or cannot be written. -/
  | mute {m : Message} {tail : Tail UInt8 Error} {e : Error} :
      (∀ e, tail ≠ .fail e) →
      (∀ v, versions.getLast? = some v → ∀ w,
        (protocol S).toBytes S (.acceptVersion v magic) ≠ .ok w) →
      Verdict versions magic ([m], tail) (.panic e) []
  /-- The client has accepted its own proposal, with a version the server knows. -/
  | dictated {m : Message} {tail : Tail UInt8 Error} {v : Version} :
      (∀ e, tail ≠ .fail e) → v ∈ versions →
      Verdict versions magic ([m, .acceptVersion v magic], tail) (.ok (v, magic)) []
  | unknown {m : Message} {tail : Tail UInt8 Error} {v : Version} {e : Error} :
      (∀ e, tail ≠ .fail e) → v ∉ versions →
      Verdict versions magic ([m, .acceptVersion v magic], tail) (.err e) []
  | refused {m : Message} {tail : Tail UInt8 Error} {e : Error} :
      (∀ e, tail ≠ .fail e) → Verdict versions magic ([m, .refuse], tail) (.err e) []
  /-- A message in the wrong place, a wrong magic, or bytes that are no message. -/
  | fault {ms : List Message} {tail : Tail UInt8 Error} {e : Error} :
      (∀ m, ms = [m] → ∃ e, tail = .fail e) →
      (∀ m v, ms = [m, .acceptVersion v magic] → ∃ e, tail = .fail e) →
      (∀ m, ms = [m, .refuse] → ∃ e, tail = .fail e) →
      Verdict versions magic (ms, tail) (.panic e) []

variable {S}

/-! ### Up to the first batch -/

def HandshakeBuilder.serving (b : HandshakeBuilder) (state : State) (version : Option Version) :
    Handshake :=
  { role := .server, versions := b.versions, networkMagic := b.magic, state, version }

@[simp] theorem role_serving (b : HandshakeBuilder) (state : State) (version : Option Version) :
    (protocol S).role (b.serving state version) = .server := rfl

@[simp] theorem agency_serving_propose (b : HandshakeBuilder) (version : Option Version) :
    (protocol S).agency (b.serving .propose version) = .client := rfl

@[simp] theorem agency_serving_confirm (b : HandshakeBuilder) (version : Option Version) :
    (protocol S).agency (b.serving .confirm version) = .server := rfl

/-- The server before its first message. -/
structure Waiting (b : HandshakeBuilder) (p : Party Handshake Message) : Prop where
  proto : p.proto = b.serving .propose none
  sent : p.channel.sent = []

theorem waiting_server {b : HandshakeBuilder} {p : Party Handshake Message}
    (hp : b.server = .ok p) (payloads : List Bytes) : Waiting b (p.arrive payloads) := by
  cases hp
  exact ⟨rfl, rfl⟩

variable {b : HandshakeBuilder} {p : Party Handshake Message}

theorem Waiting.agency_ne_none (h : Waiting b p) : (protocol S).agency p.proto ≠ .none := by
  simp [h.proto]

theorem Waiting.agency_ne_role (h : Waiting b p) :
    (protocol S).agency p.proto ≠ (protocol S).role p.proto := by
  simp [h.proto]

/-- A payload that completes no message is added to the carry. -/
theorem Waiting.afterRecv (h : Waiting b p) (qs : List Bytes) (carry : Bytes) :
    Waiting b (p.afterRecv (protocol S) [] qs carry) :=
  ⟨h.proto, h.sent⟩

theorem Waiting.pending (h : Waiting b p)
    (hnone : firstBatch S p.channel.bytes p.channel.receiver = none) :
    ∃ carry p', Party.execute (protocol S) S p = (.pending carry, p') := by
  induction hq : p.channel.receiver generalizing p with
  | nil =>
      have hwait : Party.turn (protocol S) S p = .wait :=
        Party.turn_wait_iff.mpr ⟨h.agency_ne_none, h.agency_ne_role, hq⟩
      exact ⟨_, _, Party.execute_wait hwait⟩
  | cons q qs ih =>
      rw [hq, firstBatch] at hnone
      have hstep : ∀ tail, ((protocol S).decoder S).feed p.channel.bytes q = ([], tail) →
          (∀ e, tail ≠ .fail e) → firstBatch S tail.carry qs = none →
          ∃ carry p', Party.execute (protocol S) S p = (.pending carry, p') := by
        intro tail hfeed htail hrest
        have hturn := Party.turn_recv_ok (s := p.proto) h.agency_ne_none h.agency_ne_role hq
          hfeed rfl htail
        rw [Party.execute_next hturn]
        exact ih (h.afterRecv qs tail.carry) hrest rfl
      split at hnone
      case h_1 hfeed => exact hstep .done hfeed (by simp) hnone
      case h_2 rest hfeed => exact hstep (.more rest) hfeed (by simp) hnone
      case h_3 => cases hnone

/-- The loop gets as far as the first batch. -/
theorem Waiting.opening (h : Waiting b p) {ms : List Message} {tail : Tail UInt8 Error}
    (hbatch : firstBatch S p.channel.bytes p.channel.receiver = some (ms, tail)) :
    ∃ p' q qs, Waiting b p' ∧ p'.channel.receiver = q :: qs ∧
      ((protocol S).decoder S).feed p'.channel.bytes q = (ms, tail) ∧
      (ms = [] → ∃ e, tail = .fail e) ∧
      Party.execute (protocol S) S p = Party.execute (protocol S) S p' := by
  induction hq : p.channel.receiver generalizing p with
  | nil =>
      rw [hq] at hbatch
      cases hbatch
  | cons q qs ih =>
      rw [hq, firstBatch] at hbatch
      have hstep : ∀ t, ((protocol S).decoder S).feed p.channel.bytes q = ([], t) →
          (∀ e, t ≠ .fail e) → firstBatch S t.carry qs = some (ms, tail) →
          ∃ p' q qs, Waiting b p' ∧ p'.channel.receiver = q :: qs ∧
            ((protocol S).decoder S).feed p'.channel.bytes q = (ms, tail) ∧
            (ms = [] → ∃ e, tail = .fail e) ∧
            Party.execute (protocol S) S p = Party.execute (protocol S) S p' := by
        intro t hfeed ht hrest
        have hturn := Party.turn_recv_ok (s := p.proto) h.agency_ne_none h.agency_ne_role hq
          hfeed rfl ht
        rw [Party.execute_next hturn]
        exact ih (h.afterRecv qs t.carry) hrest rfl
      split at hbatch
      case h_1 hfeed => exact hstep .done hfeed (by simp) hbatch
      case h_2 rest hfeed => exact hstep (.more rest) hfeed (by simp) hbatch
      case h_3 ms' tail' hdone hmore hfeed =>
        cases hbatch
        refine ⟨p, q, qs, h, hq, hfeed, ?_, rfl⟩
        rintro rfl
        cases tail with
        | done => exact (hdone rfl rfl).elim
        | more rest => exact (hmore rest rfl rfl).elim
        | fail e => exact ⟨e, rfl⟩

/-! ### The first batch -/

/-- `negotiate` after a loop that has come to its end. -/
theorem negotiate_of_stop {p' : Party Handshake Message}
    (hexecute : Party.execute (protocol S) S p = Party.execute (protocol S) S p')
    (hdone : p'.proto.state = .done) :
    negotiate S p = match p'.proto.version with
      | some v => (.ok (v, p'.proto.networkMagic), p')
      | none => (.err (.text "Handshake failed."), p') := by
  have hstop : Party.turn (protocol S) S p' = .stop := by
    rw [Party.turn_stop_iff]
    simp [protocol, Handshake.agency, hdone]
  have hrun : Party.execute (protocol S) S { p with proto := id p.proto } = (.ok (), p') := by
    rw [Party.execute_stop hstop] at hexecute
    exact hexecute
  simp only [negotiate, Party.call, hrun, Handshake.result]
  cases p'.proto.version <;> rfl

theorem negotiate_of_panic {p' p'' : Party Handshake Message} {e : Error}
    (hexecute : Party.execute (protocol S) S p = Party.execute (protocol S) S p')
    (hpanic : Party.turn (protocol S) S p' = .panic e p'') :
    negotiate S p = (.panic e, p'') := by
  have hrun : Party.execute (protocol S) S { p with proto := id p.proto } = (.panic e, p'') := by
    rw [Party.execute_panic hpanic] at hexecute
    exact hexecute
  simp only [negotiate, Party.call, hrun]

theorem Waiting.negotiate_pending (h : Waiting b p)
    (hnone : firstBatch S p.channel.bytes p.channel.receiver = none) :
    ∃ carry, (negotiate S p).1 = .pending carry := by
  obtain ⟨carry, p', hexecute⟩ := h.pending hnone
  have hrun : Party.execute (protocol S) S { p with proto := id p.proto } = (.pending carry, p') :=
    hexecute
  exact ⟨carry, by simp only [negotiate, Party.call, hrun]⟩

/-- What becomes of a waiting server when it is handed a message and `rest` behind it. -/
inductive Opened (b : HandshakeBuilder) : List Message → Outcome Unit × Handshake → Prop
  | alone : Opened b [] (.ok (), b.serving .confirm none)
  | accepted (v : Version) : Opened b [.acceptVersion v b.magic]
      (.ok (), b.serving .done (b.versions.find? (· = v)))
  | refused : Opened b [.refuse] (.ok (), b.serving .done none)
  | failed {rest : List Message} {r : Outcome Unit × Handshake} {e : Error} :
      r.1 = .panic e → Opened b rest r

theorem deliver_waiting (b : HandshakeBuilder) (m : Message) (rest : List Message) :
    Opened b rest ((protocol S).deliver (m :: rest) (b.serving .propose none)) := by
  have hfirst : (protocol S).recv (b.serving .propose none) m =
      (.ok (), b.serving .confirm none) := rfl
  have hdone (version : Option Version) (m' : Message) (rest : List Message) :
      ((protocol S).deliver (m' :: rest) (b.serving .done version)).1 =
        .panic (.text "unexpected recv") := rfl
  rw [Protocol.deliver_cons_ok hfirst]
  cases rest with
  | nil => exact .alone
  | cons m' rest =>
      cases m' with
      | proposeVersions versions => exact .failed rfl
      | acceptVersion v magic =>
          by_cases hmagic : magic = b.magic
          · subst hmagic
            have hsecond : (protocol S).recv (b.serving .confirm none)
                (.acceptVersion v b.magic) =
                (.ok (), b.serving .done (b.versions.find? (· = v))) := by
              simp [protocol, Handshake.recv, HandshakeBuilder.serving]
            rw [Protocol.deliver_cons_ok hsecond]
            cases rest with
            | nil => exact .accepted v
            | cons m'' rest => exact .failed (hdone _ m'' rest)
          · apply Opened.failed (e := .text "assertion failed")
            simp [protocol, Handshake.recv, Protocol.deliver, HandshakeBuilder.serving, hmagic]
      | refuse =>
          have hsecond : (protocol S).recv (b.serving .confirm none) .refuse =
              (.ok (), b.serving .done none) := rfl
          rw [Protocol.deliver_cons_ok hsecond]
          cases rest with
          | nil => exact .refused
          | cons m'' rest => exact .failed (hdone _ m'' rest)

theorem find_version {versions : List Version} {v : Version} (hv : v ∈ versions) :
    versions.find? (· = v) = some v := by
  have hsome : (versions.find? (· = v)).isSome := List.find?_isSome.mpr ⟨v, hv, by simp⟩
  obtain ⟨w, hw⟩ := Option.isSome_iff_exists.mp hsome
  have hwv : w = v := by simpa using List.find?_some hw
  rw [hw, hwv]

theorem find_version_none {versions : List Version} {v : Version} (hv : v ∉ versions) :
    versions.find? (· = v) = none := by
  rw [List.find?_eq_none]
  intro w hw hwv
  exact hv (of_decide_eq_true hwv ▸ hw)

/-- A server that has been given one message answers it. -/
theorem verdict_alone {m : Message} {tail : Tail UInt8 Error} (htail : ∀ e, tail ≠ .fail e)
    {p' : Party Handshake Message} (hproto : p'.proto = b.serving .confirm none)
    (hsent : p'.channel.sent = [])
    (hexecute : Party.execute (protocol S) S p = Party.execute (protocol S) S p') :
    Verdict S b.versions b.magic ([m], tail) (negotiate S p).1
      (negotiate S p).2.channel.sent := by
  have hnone : (protocol S).agency p'.proto ≠ .none := by simp [hproto]
  have hrole : (protocol S).agency p'.proto = (protocol S).role p'.proto := by simp [hproto]
  by_cases hwritten : ∃ v w, b.versions.getLast? = some v ∧
      (protocol S).toBytes S (.acceptVersion v b.magic) = .ok w
  · obtain ⟨v, w, hlast, hw⟩ := hwritten
    have hsend : (protocol S).send p'.proto =
        (.ok (.acceptVersion v b.magic), b.serving .done (some v)) := by
      rw [hproto]
      simp [protocol, Handshake.send, HandshakeBuilder.serving, hlast]
    rw [Party.execute_next (Party.turn_send_ok hnone hrole hsend hw)] at hexecute
    have hnegotiate : negotiate S p = (.ok (v, b.magic),
        p'.afterSend (b.serving .done (some v)) (.acceptVersion v b.magic) w) :=
      negotiate_of_stop hexecute rfl
    have hafter : (p'.afterSend (b.serving .done (some v))
        (.acceptVersion v b.magic) w).channel.sent = [w] := by
      rw [Party.afterSend, hsent]
      rfl
    rw [hnegotiate, hafter]
    exact .answered htail hlast hw
  · obtain ⟨e, p'', hturn, hfault⟩ :=
      (Party.turn_send_cases (S := S) hnone hrole).resolve_left <| by
        rintro ⟨p'', -, hturned⟩
        cases hturned with
        | recv _ hrole' => exact absurd hrole hrole'
        | send _ _ hsend hdata =>
            rw [hproto] at hsend
            simp only [protocol, Handshake.send, HandshakeBuilder.serving] at hsend
            split at hsend
            · cases hsend
            · cases hsend
              exact hwritten ⟨_, _, ‹_›, hdata⟩
    rw [negotiate_of_panic hexecute hturn, hfault.sent, hsent]
    exact .mute htail fun v hlast w hw => hwritten ⟨v, w, hlast, hw⟩

section

variable {ms : List Message} {tail : Tail UInt8 Error} {p' : Party Handshake Message} {q : Bytes}
  {qs : List Bytes}

/-- An unreadable batch, or one with a message out of place, ends in a panic. -/
theorem Waiting.faulted (h : Waiting b p') (hq : p'.channel.receiver = q :: qs)
    (hfeed : ((protocol S).decoder S).feed p'.channel.bytes q = (ms, tail))
    (hexecute : Party.execute (protocol S) S p = Party.execute (protocol S) S p')
    (hpanic : (∃ e, ((protocol S).deliver ms p'.proto).1 = .panic e) ∨ ∃ e, tail = .fail e) :
    Verdict S b.versions b.magic (ms, tail) (negotiate S p).1
      (negotiate S p).2.channel.sent := by
  obtain ⟨e, hturn⟩ := Party.turn_recv_panic h.agency_ne_none h.agency_ne_role hq hfeed hpanic
  have hsent : (p'.afterRecv (protocol S) ms qs []).channel.sent = [] := h.sent
  rw [negotiate_of_panic hexecute hturn, hsent]
  rw [h.proto] at hpanic
  apply Verdict.fault
  · intro m hms
    apply hpanic.resolve_left
    rintro ⟨e, he⟩
    rw [hms] at he
    cases he
  · intro m v hms
    apply hpanic.resolve_left
    rintro ⟨e, he⟩
    simp [hms, protocol, Protocol.deliver, Handshake.recv, HandshakeBuilder.serving] at he
  · intro m hms
    apply hpanic.resolve_left
    rintro ⟨e, he⟩
    rw [hms] at he
    cases he

/-- A batch that ends the handshake. Nothing has been sent. -/
theorem Waiting.concluded (h : Waiting b p') (hq : p'.channel.receiver = q :: qs)
    (hfeed : ((protocol S).decoder S).feed p'.channel.bytes q = (ms, tail))
    (hexecute : Party.execute (protocol S) S p = Party.execute (protocol S) S p')
    (htail : ∀ e, tail ≠ .fail e) {version : Option Version}
    (hdeliver : (protocol S).deliver ms (b.serving .propose none) =
      (.ok (), b.serving .done version)) :
    (negotiate S p).2.channel.sent = [] ∧ (negotiate S p).1 =
      version.elim (.err (.text "Handshake failed.")) fun v => .ok (v, b.magic) := by
  rw [← h.proto] at hdeliver
  have hturn := Party.turn_recv_ok h.agency_ne_none h.agency_ne_role hq hfeed hdeliver htail
  rw [Party.execute_next hturn] at hexecute
  have hafter : (p'.afterRecv (protocol S) ms qs tail.carry).proto = b.serving .done version :=
    congrArg Prod.snd hdeliver
  have hsent : (p'.afterRecv (protocol S) ms qs tail.carry).channel.sent = [] := h.sent
  rw [negotiate_of_stop hexecute (by rw [hafter]; rfl), hafter]
  cases version <;> exact ⟨hsent, rfl⟩

end

/-- The first batch decides everything. -/
theorem Waiting.verdict (h : Waiting b p) {ms : List Message} {tail : Tail UInt8 Error}
    (hbatch : firstBatch S p.channel.bytes p.channel.receiver = some (ms, tail)) :
    Verdict S b.versions b.magic (ms, tail) (negotiate S p).1
      (negotiate S p).2.channel.sent := by
  obtain ⟨p', q, qs, h', hq, hfeed, hne, hexecute⟩ := h.opening hbatch
  by_cases htail : ∃ e, tail = .fail e
  · exact h'.faulted hq hfeed hexecute (.inr htail)
  have hgood : ∀ e, tail ≠ .fail e := fun e he => htail ⟨e, he⟩
  cases ms with
  | nil => exact absurd (hne rfl) htail
  | cons m ms =>
      have hopened := deliver_waiting (S := S) b m ms
      generalize hdeliver : (protocol S).deliver (m :: ms) (b.serving .propose none) = r
        at hopened
      cases hopened with
      | alone =>
          -- the server's turn has come
          rw [← h'.proto] at hdeliver
          have hturn := Party.turn_recv_ok h'.agency_ne_none h'.agency_ne_role hq hfeed hdeliver
            hgood
          rw [Party.execute_next hturn] at hexecute
          have hafter := congrArg Prod.snd hdeliver
          have hsent : (p'.afterRecv (protocol S) [m] qs tail.carry).channel.sent = [] := h'.sent
          exact verdict_alone hgood hafter hsent hexecute
      | accepted v =>
          obtain ⟨hsent, hresult⟩ := h'.concluded hq hfeed hexecute hgood hdeliver
          rw [hsent, hresult]
          by_cases hv : v ∈ b.versions
          · rw [find_version hv]
            exact .dictated hgood hv
          · rw [find_version_none hv]
            exact .unknown hgood hv
      | refused =>
          obtain ⟨hsent, hresult⟩ := h'.concluded hq hfeed hexecute hgood hdeliver
          rw [hsent, hresult]
          exact .refused hgood
      | @failed _ r e hpanic =>
          rw [← h'.proto] at hdeliver
          exact h'.faulted hq hfeed hexecute (.inl ⟨e, by rw [hdeliver, hpanic]⟩)

/-! ### What the server accepts -/

/-- The message is a proposal that lists the pair. -/
def Message.Proposes (m : Message) (v : Version) (magic : UInt32) : Prop :=
  ∃ versions, m = .proposeVersions versions ∧ (v, magic) ∈ versions

/-- A server that returns `Ok` has found the pair in the proposal `m`, and without
a common pair it sends no `AcceptVersion` and returns `Err`. -/
structure Honest (S : SerdeCbor) (b : HandshakeBuilder) (m : Message)
    (r : Exit (Version × UInt32) × Party Handshake Message) : Prop where
  accepted : ∀ v magic, r.1 = .ok (v, magic) → m.Proposes v magic ∧ v ∈ b.versions
  refused : (¬ ∃ v ∈ b.versions, m.Proposes v b.magic) →
    (∀ v magic w, (protocol S).toBytes S (.acceptVersion v magic) = .ok w →
      w ∉ r.2.channel.sent) ∧ ∃ e, r.1 = .err e

/-- The server settles on `v` after a first message that `rest` follows in its
payload: its last version, or the one the client names behind its proposal. -/
def Settles (S : SerdeCbor) (b : HandshakeBuilder) (rest : List Message)
    (tail : Tail UInt8 Error) (v : Version) : Prop :=
  (∀ e, tail ≠ .fail e) ∧
    (rest = [] ∧ b.versions.getLast? = some v ∧
        (∃ w, (protocol S).toBytes S (.acceptVersion v b.magic) = .ok w) ∨
      rest = [.acceptVersion v b.magic] ∧ v ∈ b.versions)

/-- The messages behind the first one end the handshake without a version. -/
def Declines (b : HandshakeBuilder) (rest : List Message) (tail : Tail UInt8 Error) : Prop :=
  (∀ e, tail ≠ .fail e) ∧
    (rest = [.refuse] ∨ ∃ v, v ∉ b.versions ∧ rest = [.acceptVersion v b.magic])

/-- When a server is honest: if it settles on a version, that version was
proposed with its magic, and if it fails without an answer, some pair was. -/
def Safe (S : SerdeCbor) (b : HandshakeBuilder) (m : Message) (rest : List Message)
    (tail : Tail UInt8 Error) : Prop :=
  Declines b rest tail ∨ (∃ v, Settles S b rest tail v ∧ m.Proposes v b.magic) ∨
    (∀ v, ¬ Settles S b rest tail v) ∧ ∃ v ∈ b.versions, m.Proposes v b.magic

theorem Settles.unique {rest : List Message} {tail : Tail UInt8 Error} {v v' : Version}
    (h : Settles S b rest tail v) (h' : Settles S b rest tail v') : v = v' := by
  obtain ⟨-, ⟨hrest, hlast, -⟩ | ⟨hrest, -⟩⟩ := h <;>
    obtain ⟨-, ⟨hrest', hlast', -⟩ | ⟨hrest', -⟩⟩ := h'
  · exact Option.some.inj (hlast.symm.trans hlast')
  · cases hrest.symm.trans hrest'
  · cases hrest.symm.trans hrest'
  · cases hrest.symm.trans hrest'
    rfl

theorem Settles.not_declines {rest : List Message} {tail : Tail UInt8 Error} {v : Version}
    (h : Settles S b rest tail v) : ¬ Declines b rest tail := by
  rintro ⟨-, hrest' | ⟨v', hv', hrest'⟩⟩ <;> obtain ⟨-, ⟨hrest, -⟩ | ⟨hrest, hv⟩⟩ := h
  · cases hrest.symm.trans hrest'
  · cases hrest.symm.trans hrest'
  · cases hrest.symm.trans hrest'
  · cases hrest.symm.trans hrest'
    exact hv' hv

/-- A server that settles on a version is honest if the client proposed it. -/
theorem honest_ok {m : Message} {rest : List Message} {tail : Tail UInt8 Error} {v : Version}
    {r : Exit (Version × UInt32) × Party Handshake Message}
    (hsettles : Settles S b rest tail v) (hr : r.1 = .ok (v, b.magic)) (hv : v ∈ b.versions) :
    Honest S b m r ↔ Safe S b m rest tail := by
  constructor
  · intro h
    exact .inr (.inl ⟨v, hsettles, (h.accepted v b.magic hr).1⟩)
  · rintro (hdeclines | ⟨v', hsettles', hproposes⟩ | ⟨hnever, -⟩)
    · exact absurd hdeclines hsettles.not_declines
    · cases hsettles.unique hsettles'
      refine ⟨fun w magic hw => ?_, fun hnone => absurd ⟨v, hv, hproposes⟩ hnone⟩
      rw [hr] at hw
      cases hw
      exact ⟨hproposes, hv⟩
    · exact absurd hsettles (hnever v)

/-- A server that fails without an answer owes one if the client proposed none. -/
theorem honest_panic {m : Message} {rest : List Message} {tail : Tail UInt8 Error} {e : Error}
    {r : Exit (Version × UInt32) × Party Handshake Message}
    (hnever : ∀ v, ¬ Settles S b rest tail v) (hdeclines : ¬ Declines b rest tail)
    (hr : r.1 = .panic e) : Honest S b m r ↔ Safe S b m rest tail := by
  constructor
  · intro h
    refine .inr (.inr ⟨hnever, ?_⟩)
    by_contra hnone
    obtain ⟨-, e', herr⟩ := h.refused hnone
    rw [hr] at herr
    cases herr
  · rintro (hdeclines' | ⟨v, hsettles, -⟩ | ⟨-, hshares⟩)
    · exact absurd hdeclines' hdeclines
    · exact absurd hsettles (hnever v)
    · refine ⟨fun v magic hok => ?_, fun hnone => absurd hshares hnone⟩
      rw [hr] at hok
      cases hok

/-- A server whose handshake is called off is honest. -/
theorem honest_err {m : Message} {rest : List Message} {tail : Tail UInt8 Error} {e : Error}
    {r : Exit (Version × UInt32) × Party Handshake Message}
    (hdeclines : Declines b rest tail) (hr : r.1 = .err e) (hsent : r.2.channel.sent = []) :
    Honest S b m r ↔ Safe S b m rest tail := by
  refine iff_of_true ⟨fun v magic hok => ?_, fun _ => ⟨fun v magic w _ hw => ?_, e, hr⟩⟩
    (.inl hdeclines)
  · rw [hr] at hok
    cases hok
  · rw [hsent] at hw
    cases hw

theorem Verdict.honest {m : Message} {rest : List Message} {tail : Tail UInt8 Error}
    {r : Exit (Version × UInt32) × Party Handshake Message}
    (h : Verdict S b.versions b.magic (m :: rest, tail) r.1 r.2.channel.sent) :
    Honest S b m r ↔ Safe S b m rest tail := by
  generalize hbatch : (m :: rest, tail) = batch at h
  generalize hr : r.1 = x at h
  generalize hsent : r.2.channel.sent = sent at h
  cases h with
  | @answered m' tail' v w htail hlast hw =>
      cases hbatch
      exact honest_ok ⟨htail, .inl ⟨rfl, hlast, w, hw⟩⟩ hr (List.mem_of_getLast? hlast)
  | @mute m' tail' e htail hmute =>
      cases hbatch
      refine honest_panic (fun v hsettles => ?_) ?_ hr
      · obtain ⟨-, ⟨-, hlast, w, hw⟩ | ⟨hrest, -⟩⟩ := hsettles
        · exact hmute v hlast w hw
        · cases hrest
      · rintro ⟨-, hrest | ⟨v, -, hrest⟩⟩ <;> cases hrest
  | @dictated m' tail' v htail hv =>
      cases hbatch
      exact honest_ok ⟨htail, .inr ⟨rfl, hv⟩⟩ hr hv
  | @unknown m' tail' v e htail hv =>
      cases hbatch
      exact honest_err ⟨htail, .inr ⟨v, hv, rfl⟩⟩ hr hsent
  | @refused m' tail' e htail =>
      cases hbatch
      exact honest_err ⟨htail, .inl rfl⟩ hr hsent
  | @fault ms tail' e halone haccept hrefuse =>
      cases hbatch
      refine honest_panic (fun v hsettles => ?_) ?_ hr
      · obtain ⟨htail, ⟨rfl, -⟩ | ⟨rfl, -⟩⟩ := hsettles
        · obtain ⟨e', htail'⟩ := halone m rfl
          exact htail e' htail'
        · obtain ⟨e', htail'⟩ := haccept m v rfl
          exact htail e' htail'
      · rintro ⟨htail, rfl | ⟨v, -, rfl⟩⟩
        · obtain ⟨e', htail'⟩ := hrefuse m rfl
          exact htail e' htail'
        · obtain ⟨e', htail'⟩ := haccept m v rfl
          exact htail e' htail'

/-- **When the server accepts only what the client proposed.** Let `m` be the first
message of the client, and `rest` and `tail` what follows it in the payload that
completes it. The server is honest if and only if `Safe` says so of them. -/
theorem accepts_proposed_iff {b : HandshakeBuilder} {p : Party Handshake Message}
    (hp : b.server = .ok p) {payloads : List Bytes} {m : Message} {rest : List Message}
    {tail : Tail UInt8 Error} (hbatch : firstBatch S [] payloads = some (m :: rest, tail)) :
    Honest S b m (negotiate S (p.arrive payloads)) ↔ Safe S b m rest tail := by
  have hwaiting := waiting_server hp payloads
  cases hp
  exact (hwaiting.verdict hbatch).honest

/-- A first payload of whole messages. -/
theorem firstBatch_whole {es : List (Message × Bytes)} (hne : es ≠ [])
    (hes : ∀ e ∈ es, (protocol S).Encoded S e.1 e.2) (payloads : List Bytes) :
    firstBatch S [] (es.flatMap Prod.snd :: payloads) = some (es.map Prod.fst, .done) := by
  have hfeed := Protocol.feed_whole hes
  obtain ⟨e, es, rfl⟩ := List.exists_cons_of_ne_nil hne
  rw [firstBatch, hfeed]
  rfl

/-- The values of a proposal of one version with parameters. -/
def soleProposal (v magic : ℕ) : List Value :=
  [.integer 0, .map [(.integer v, .array [.integer magic, .bool false])]]

theorem plain_soleProposal {v magic : ℕ} (hv : v < 2 ^ 64) (hmagic : magic < 2 ^ 64) :
    Plain (soleProposal v magic) := by
  have hparams : (Value.array [.integer magic, .bool false]).Plain 2 :=
    plain_array (by simp [Value.Plain]; omega)
  have hentry : (Value.map [(.integer v, .array [.integer magic, .bool false])]).Plain 3 := by
    refine ⟨fun e he => ?_, List.pairwise_singleton _ _⟩
    rw [List.mem_singleton.mp he]
    exact ⟨⟨v, hv, rfl⟩, hparams⟩
  simp [Plain, soleProposal, hentry]

theorem encoded_proposal (v magic : ℕ) (hv : v < 2 ^ 64) (hmagic : magic < 2 ^ 64)
    {w : Bytes} {m : Message} (hw : Cbor.serdeCbor.toVec (soleProposal v magic) = .ok w)
    (hm : Message.fromIter.eval (soleProposal v magic) = .ok m) :
    (protocol Cbor.serdeCbor).Encoded Cbor.serdeCbor m w :=
  Protocol.encoded_of_toVec Cbor.serdeCbor_lawful (plain_soleProposal hv hmagic) hw hm

theorem firstBatch_proposal (v magic : ℕ) (hv : v < 2 ^ 64) (hmagic : magic < 2 ^ 64)
    {w : Bytes} {m : Message} (hw : Cbor.serdeCbor.toVec (soleProposal v magic) = .ok w)
    (hm : Message.fromIter.eval (soleProposal v magic) = .ok m) :
    firstBatch Cbor.serdeCbor [] [w] = some ([m], .done) := by
  have hes : ∀ e ∈ [(m, w)], (protocol Cbor.serdeCbor).Encoded Cbor.serdeCbor e.1 e.2 := by
    simp only [List.forall_mem_cons, List.not_mem_nil, false_implies, implies_true, and_true]
    exact encoded_proposal v magic hv hmagic hw hm
  simpa using firstBatch_whole (by simp) hes []

/-- The server answers a proposal of its last version. -/
theorem accepts_proposed_seven :
    ∃ p, builder.server = .ok p ∧ Honest Cbor.serdeCbor builder (.proposeVersions [(.n2n 7, 0)])
      (negotiate Cbor.serdeCbor (p.arrive [[0x82, 0, 0xa1, 7, 0x82, 0, 0xf4]])) := by
  have hbatch : firstBatch Cbor.serdeCbor [] [[0x82, 0, 0xa1, 7, 0x82, 0, 0xf4]] =
      some ([.proposeVersions [(.n2n 7, 0)]], .done) :=
    firstBatch_proposal 7 0 (by decide) (by decide) rfl rfl
  refine ⟨_, rfl, (accepts_proposed_iff rfl hbatch).mpr ?_⟩
  exact .inr (.inl ⟨.n2n 7, ⟨by simp, .inl ⟨rfl, rfl, _, rfl⟩⟩, _, rfl, by simp [builder]⟩)

/-- The server accepts its own last version from a client that has proposed
another one, for another network. -/
theorem accepts_unproposed :
    ∃ p, builder.server = .ok p ∧
      ¬ Honest Cbor.serdeCbor builder (.proposeVersions [(.n2n 4, 1)])
        (negotiate Cbor.serdeCbor (p.arrive [[0x82, 0, 0xa1, 4, 0x82, 1, 0xf4]])) := by
  have hbatch : firstBatch Cbor.serdeCbor [] [[0x82, 0, 0xa1, 4, 0x82, 1, 0xf4]] =
      some ([.proposeVersions [(.n2n 4, 1)]], .done) :=
    firstBatch_proposal 4 1 (by decide) (by decide) rfl rfl
  refine ⟨_, rfl, fun hhonest => ?_⟩
  have hverdict := (waiting_server (b := builder) rfl _).verdict hbatch
  have hnever : ∀ v, ¬ (Message.proposeVersions [(.n2n 4, 1)]).Proposes v builder.magic := by
    rintro v ⟨versions, hversions, hmem⟩
    cases hversions
    simp [builder] at hmem
  rcases hverdict.honest.mp hhonest with ⟨-, hrest | ⟨v, -, hrest⟩⟩ | ⟨v, -, hv⟩ | ⟨-, v, -, hv⟩
  · cases hrest
  · cases hrest
  · exact hnever v hv
  · exact hnever v hv

/-! ### What the server has sent -/

/-- If the server returns `Ok`, it has sent one message, and that message accepts
the returned pair with the server's own last version. -/
def HasAnswered (S : SerdeCbor) (b : HandshakeBuilder)
    (r : Exit (Version × UInt32) × Party Handshake Message) : Prop :=
  ∀ v magic, r.1 = .ok (v, magic) → b.versions.getLast? = some v ∧
    ∃ w, (protocol S).toBytes S (.acceptVersion v magic) = .ok w ∧ r.2.channel.sent = [w]

/-- The first batch is a message and an acceptance of it by the client itself. -/
def Dictates (b : HandshakeBuilder) (batch : List Message × Tail UInt8 Error) : Prop :=
  ∃ m, ∃ v ∈ b.versions, batch.1 = [m, .acceptVersion v b.magic] ∧ ∀ e, batch.2 ≠ .fail e

theorem Verdict.hasAnswered {batch : List Message × Tail UInt8 Error}
    {r : Exit (Version × UInt32) × Party Handshake Message}
    (h : Verdict S b.versions b.magic batch r.1 r.2.channel.sent) :
    HasAnswered S b r ↔ ¬ Dictates b batch := by
  generalize hr : r.1 = x at h
  generalize hsent : r.2.channel.sent = sent at h
  have hnot : (∀ v magic, x ≠ .ok (v, magic)) → HasAnswered S b r := by
    intro hx v magic hok
    exact absurd (hr.symm.trans hok) (hx v magic)
  cases h with
  | @answered m tail v w htail hlast hw =>
      apply iff_of_true
      · intro v' magic hok
        cases hr.symm.trans hok
        exact ⟨hlast, w, hw, hsent⟩
      · rintro ⟨m', v', -, hms, -⟩
        cases hms
  | @mute m tail e htail hmute =>
      apply iff_of_true (hnot fun _ _ => by simp)
      rintro ⟨m', v', -, hms, -⟩
      cases hms
  | @dictated m tail v htail hv =>
      refine iff_of_false (fun hanswered => ?_) fun hnever => hnever ⟨m, v, hv, rfl, htail⟩
      obtain ⟨-, w, -, hw⟩ := hanswered v b.magic hr
      cases hsent.symm.trans hw
  | @unknown m tail v e htail hv =>
      apply iff_of_true (hnot fun _ _ => by simp)
      rintro ⟨m', v', hv', hms, -⟩
      cases hms
      exact hv hv'
  | @refused m tail e htail =>
      apply iff_of_true (hnot fun _ _ => by simp)
      rintro ⟨m', v', -, hms, -⟩
      cases hms
  | @fault ms tail e halone haccept hrefuse =>
      apply iff_of_true (hnot fun _ _ => by simp)
      rintro ⟨m', v', -, hms, htail⟩
      obtain ⟨e', htail'⟩ := haccept m' v' hms
      exact htail e' htail'

/-- **When a successful server has answered.** Whatever the client sends and
however it is cut into payloads, `negotiate` returns `Ok` only after an answer of
the server's own, unless the first batch accepts the client's own message. -/
theorem server_answered_iff {b : HandshakeBuilder} {p : Party Handshake Message}
    (hp : b.server = .ok p) (payloads : List Bytes) :
    HasAnswered S b (negotiate S (p.arrive payloads)) ↔
      ∀ batch, firstBatch S [] payloads = some batch → ¬ Dictates b batch := by
  have hwaiting := waiting_server hp payloads
  cases hp
  cases hbatch : firstBatch S [] payloads with
  | none =>
      obtain ⟨carry, hpending⟩ := hwaiting.negotiate_pending hbatch
      refine iff_of_true (fun v magic hok => ?_) (fun batch h => by cases h)
      rw [hpending] at hok
      cases hok
  | some batch =>
      rw [(hwaiting.verdict hbatch).hasAnswered]
      simp

/-- A proposal that comes alone is answered. -/
theorem server_answered_seven :
    ∃ p, builder.server = .ok p ∧ HasAnswered Cbor.serdeCbor builder
      (negotiate Cbor.serdeCbor (p.arrive [[0x82, 0, 0xa1, 7, 0x82, 0, 0xf4]])) := by
  have hbatch : firstBatch Cbor.serdeCbor [] [[0x82, 0, 0xa1, 7, 0x82, 0, 0xf4]] =
      some ([.proposeVersions [(.n2n 7, 0)]], .done) :=
    firstBatch_proposal 7 0 (by decide) (by decide) rfl rfl
  refine ⟨_, rfl, (server_answered_iff rfl _).mpr fun batch hfirst => ?_⟩
  cases hbatch.symm.trans hfirst
  rintro ⟨m, v, -, hms, -⟩
  cases hms

/-- A payload that holds a proposal and its acceptance makes the server return
`Ok` without having sent anything. -/
theorem server_dictated :
    ∃ p, builder.server = .ok p ∧ ¬ HasAnswered Cbor.serdeCbor builder
      (negotiate Cbor.serdeCbor
        (p.arrive [[0x82, 0, 0xa1, 6, 0x82, 0, 0xf4, 0x83, 1, 6, 0x82, 0, 0xf4]])) := by
  have haccept : (protocol Cbor.serdeCbor).Encoded Cbor.serdeCbor (.acceptVersion (.n2n 6) 0)
      [0x83, 1, 6, 0x82, 0, 0xf4] := by
    have hparams : (Value.array [.integer 0, .bool false]).Plain 3 :=
      plain_array (by simp [Value.Plain])
    have hplain : Plain [.integer 1, .integer 6, .array [.integer 0, .bool false]] := by
      simp [Plain, hparams]
    exact Protocol.encoded_of_toVec Cbor.serdeCbor_lawful hplain rfl rfl
  have hes : ∀ e ∈ [((.proposeVersions [(.n2n 6, 0)] : Message),
      ([0x82, 0, 0xa1, 6, 0x82, 0, 0xf4] : Bytes)),
      (.acceptVersion (.n2n 6) 0, [0x83, 1, 6, 0x82, 0, 0xf4])],
      (protocol Cbor.serdeCbor).Encoded Cbor.serdeCbor e.1 e.2 := by
    simp only [List.forall_mem_cons, List.not_mem_nil, false_implies, implies_true, and_true]
    exact ⟨encoded_proposal 6 0 (by decide) (by decide) rfl rfl, haccept⟩
  have hbatch := firstBatch_whole (by simp) hes []
  refine ⟨_, rfl, fun hanswered => ?_⟩
  have hverdict := (waiting_server (b := builder) rfl _).verdict hbatch
  exact hverdict.hasAnswered.mp hanswered
    ⟨_, .n2n 6, by simp [builder], rfl, by simp⟩

end Ouroboros.Handshake
