import Ouroboros.Protocols.ChainsyncCodec
import Ouroboros.Protocols.Conversation
import Ouroboros.SerdeCbor.Codec
import Mathlib.Data.List.Induction

/-!
Chain-sync calls against any peer.

`recv` fills the slot a message belongs to and drops the query without asking
which slot the query is waiting for. A call therefore ends as soon as an answer
of either kind has arrived, and takes what its own slot holds then. The calls
that come out right are exactly those that have been handed an answer of the
kind they asked for; every other call that ends finds its slot empty, or with
the answer to an earlier query in it.
-/

namespace Ouroboros.Chainsync

open Streaming

variable (S : SerdeCbor) (blake2b : Bytes → Bytes)

/-- The messages that end a query. -/
def Message.settles : Message → Bool
  | .rollForward _ _ | .rollBackward _ _ | .intersectFound _ _ | .intersectNotFound _ => true
  | .requestNext | .awaitReply | .findIntersect _ | .done => false

/-- The messages of a payload after which the loop stops. -/
def closes (ms : List Message) : Bool :=
  ms.any Message.settles || ms.getLast? = some .done

/-- The messages that arrive during a call: those of the payloads up to the first
one that ends the loop. -/
def arriving : Bytes → List Bytes → List Message
  | _, [] => []
  | carry, payload :: payloads =>
    let fed := ((protocol S blake2b).decoder S).feed carry payload
    if closes fed.1 then fed.1 else fed.1 ++ arriving fed.2.carry payloads

/-- The loop of the call comes to an end. -/
def Finishes (query : Query) (p : Party ChainSync Message) : Prop :=
  match (Party.execute (protocol S blake2b) S { p with proto := p.proto.ask query }).1 with
  | .ok _ | .err _ => True
  | .panic _ | .pending _ => False

/-- The call ends in an `Err`, or in a value that is what a message received
during this very call has to say to the query. -/
def Answered (query : Query) (p : Party ChainSync Message) : Prop :=
  match perform S blake2b query p with
  | (.ok answer, p') => ∃ ms, p'.handed = p.handed ++ ms ∧
      ∃ m ∈ ms, m.answer S blake2b query = some answer
  | (.err _, _) => True
  | (.panic _, _) | (.pending _, _) => False

/-- A message of the kind asked for arrives during the call. -/
def AnswerArrives (query : Query) (p : Party ChainSync Message) : Prop :=
  p.proto.state ≠ .done ∧ ∃ m ∈ arriving S blake2b p.channel.bytes p.channel.receiver,
    (m.answer S blake2b query).isSome

/-! ### What a message does to the client -/

/-- The slot a query is answered in. -/
def ChainSync.slot (query : Query) (s : ChainSync) : Option Answer :=
  match query with
  | .intersect _ => s.intersect.map .intersect
  | .reply => s.reply.map .reply

variable {S blake2b}

theorem recv_slot {s s' : ChainSync} {m : Message} (h : s.recv S blake2b m = (.ok (), s'))
    (query : Query) :
    s'.slot query = (m.answer S blake2b query).or (s.slot query) := by
  cases m with
  | rollForward header tip =>
      simp only [ChainSync.recv] at h
      split at h
      case h_1 header' hheader =>
        cases h
        cases query <;> simp [ChainSync.slot, Message.answer, hheader]
      all_goals cases h
  | findIntersect points => cases h
  | _ => cases h; cases query <;> rfl

/-- The query is gone after an answer, and only a final `Done` stops the loop
without one. -/
theorem recv_agency {s s' : ChainSync} {m : Message} (h : s.recv S blake2b m = (.ok (), s')) :
    s'.query = (if m.settles then none else s.query) ∧ (s'.state = .done ↔ m = .done) := by
  cases m with
  | rollForward header tip =>
      simp only [ChainSync.recv] at h
      split at h
      case h_1 header' hheader => cases h; simp [Message.settles]
      all_goals cases h
  | findIntersect points => cases h
  | _ => cases h; simp [Message.settles]

/-- The answer that several messages leave in a slot. -/
def latest (S : SerdeCbor) (blake2b : Bytes → Bytes) (query : Query) (slot : Option Answer)
    (ms : List Message) : Option Answer :=
  ms.foldl (fun slot m => (m.answer S blake2b query).or slot) slot

theorem deliver_slot {ms : List Message} {s s' : ChainSync}
    (h : (protocol S blake2b).deliver ms s = (.ok (), s')) (query : Query) :
    s'.slot query = latest S blake2b query (s.slot query) ms := by
  induction ms generalizing s with
  | nil => cases h; rfl
  | cons m ms ih =>
      cases hm : (protocol S blake2b).recv s m with
      | mk r t =>
          cases r with
          | ok u =>
              rw [Protocol.deliver_cons_ok hm] at h
              rw [ih h, recv_slot hm]
              rfl
          | _ => simp [Protocol.deliver, hm] at h

theorem agency_eq_none_iff {s : ChainSync} :
    s.agency = .none ↔ s.query = none ∨ s.state = .done := by
  obtain ⟨query, intersect, reply, state⟩ := s
  cases query <;> cases state <;> simp [ChainSync.agency]

theorem deliver_query {ms : List Message} {s s' : ChainSync}
    (h : (protocol S blake2b).deliver ms s = (.ok (), s')) :
    s'.query = (if ms.any Message.settles then none else s.query) ∧
      (s'.state = .done ↔ ms.getLast?.elim (s.state = .done) (· = .done)) := by
  induction ms generalizing s with
  | nil => cases h; simp
  | cons m ms ih =>
      cases hm : (protocol S blake2b).recv s m with
      | mk r t =>
          cases r with
          | ok u =>
              rw [Protocol.deliver_cons_ok hm] at h
              obtain ⟨hquery, hstate⟩ := ih h
              obtain ⟨hquery', hstate'⟩ := recv_agency hm
              refine ⟨?_, ?_⟩
              · rw [hquery, hquery', List.any_cons]
                cases m.settles <;> simp
              · rw [hstate, List.getLast?_cons, hstate']
                cases ms.getLast? <;> rfl
          | _ => simp [Protocol.deliver, hm] at h

/-- The loop goes on after a payload unless its messages close it. -/
theorem deliver_agency {ms : List Message} {s s' : ChainSync}
    (h : (protocol S blake2b).deliver ms s = (.ok (), s')) (hs : s.agency ≠ .none) :
    s'.agency = .none ↔ closes ms = true := by
  obtain ⟨hquery, hstate⟩ := deliver_query h
  rw [Ne, agency_eq_none_iff, not_or] at hs
  rw [agency_eq_none_iff, hquery, hstate, closes, Bool.or_eq_true, decide_eq_true_iff]
  apply or_congr
  · cases ms.any Message.settles <;> simp [hs.1]
  · cases ms.getLast? <;> simp [hs.2]

theorem latest_append (query : Query) (slot : Option Answer) (ms ms' : List Message) :
    latest S blake2b query slot (ms ++ ms') =
      latest S blake2b query (latest S blake2b query slot ms) ms' :=
  List.foldl_append

/-- The slot holds an answer that has just been received, if there is one. -/
theorem latest_of_answer {query : Query} {ms : List Message} (slot : Option Answer)
    (h : ∃ m ∈ ms, (m.answer S blake2b query).isSome) :
    ∃ answer, latest S blake2b query slot ms = some answer ∧
      ∃ m ∈ ms, m.answer S blake2b query = some answer := by
  induction ms using List.reverseRecOn with
  | nil => simp at h
  | append_singleton ms m ih =>
      rw [latest_append]
      cases hm : m.answer S blake2b query with
      | some answer => exact ⟨answer, by simp [latest, hm], m, by simp, hm⟩
      | none =>
          have hms : ∃ m ∈ ms, (m.answer S blake2b query).isSome := by
            obtain ⟨m', hmem, hm'⟩ := h
            rcases List.mem_append.mp hmem with hmem | hmem
            · exact ⟨m', hmem, hm'⟩
            · rw [List.mem_singleton.mp hmem, hm] at hm'
              cases hm'
          obtain ⟨answer, hlatest, m', hmem, hm'⟩ := ih hms
          exact ⟨answer, by simp [latest, hm, ← hlatest], m', List.mem_append_left _ hmem, hm'⟩

/-! ### The loop -/

/-- The loop after the messages `ms` have been handed over. -/
structure Progress (S : SerdeCbor) (blake2b : Bytes → Bytes) (query : Query)
    (p₀ : Party ChainSync Message) (ms : List Message) (p : Party ChainSync Message) : Prop where
  handed : p.handed = p₀.handed ++ ms
  slot : p.proto.slot query = latest S blake2b query (p₀.proto.slot query) ms
  stopped : p.proto.agency = .none →
    arriving S blake2b p₀.channel.bytes p₀.channel.receiver = ms
  running : p.proto.agency ≠ .none →
    arriving S blake2b p₀.channel.bytes p₀.channel.receiver =
      ms ++ arriving S blake2b p.channel.bytes p.channel.receiver

theorem send_spec {s s' : ChainSync} {m : Message} (h : s.send = (.ok m, s')) :
    s'.agency = .server ∧ ∀ query, s'.slot query = s.slot query := by
  obtain ⟨query, intersect, reply, state⟩ := s
  cases state with
  | idle =>
      rcases query with _ | points | _
      · cases h
      · cases h
        exact ⟨rfl, fun query => by cases query <;> rfl⟩
      · cases h
        exact ⟨rfl, fun query => by cases query <;> rfl⟩
  | _ => cases h

/-- The step lemma of the loop. -/
theorem Progress.turned {query : Query} {p₀ p p' : Party ChainSync Message} {ms : List Message}
    (h : Progress S blake2b query p₀ ms p) (ht : Party.Turned (protocol S blake2b) S p p') :
    ∃ ms', Progress S blake2b query p₀ ms' p' := by
  cases ht with
  | @send m s data hnone hrole hsend hdata =>
      obtain ⟨hserver, hslot⟩ := send_spec hsend
      have hs : s.agency ≠ .none := by
        rw [hserver]
        decide
      refine ⟨ms, ?_, ?_, fun hstop => absurd hstop hs, fun _ => h.running hnone⟩
      · rw [Party.handed_afterSend]
        exact h.handed
      · rw [← h.slot]
        exact hslot query
  | @recv q qs ms' tail s hnone hrole hq hfeed hdeliver htail =>
      have hproto : (p.afterRecv (protocol S blake2b) ms' qs tail.carry).proto = s := by
        simp only [Party.afterRecv, Party.delivered, hdeliver]
      have harriving := h.running hnone
      rw [hq, arriving, hfeed] at harriving
      have hagency := deliver_agency hdeliver hnone
      refine ⟨ms ++ ms', ?_, ?_, fun hstop => ?_, fun hrun => ?_⟩
      · rw [Party.handed_afterRecv, Protocol.handed_deliveries hdeliver, h.handed,
          List.append_assoc]
      · rw [hproto, deliver_slot hdeliver, h.slot, latest_append]
      · rw [hproto, hagency] at hstop
        rw [harriving, if_pos hstop]
      · rw [hproto, Ne, hagency] at hrun
        rw [harriving, if_neg hrun, List.append_assoc]
        rfl

/-- Where a call that has something to wait for ends. -/
theorem execute_progress (query : Query) {p₀ p' : Party ChainSync Message}
    (hagency : p₀.proto.agency ≠ .none)
    (h : Party.execute (protocol S blake2b) S p₀ = (.ok (), p')) :
    Progress S blake2b query p₀ (arriving S blake2b p₀.channel.bytes p₀.channel.receiver) p' := by
  have hstart : Progress S blake2b query p₀ [] p₀ :=
    ⟨by simp, rfl, fun hnone => absurd hnone hagency, fun _ => rfl⟩
  have hrun := Party.execute_rule (P := protocol S blake2b) (S := S)
    (fun p => ∃ ms, Progress S blake2b query p₀ ms p)
    (fun x p => x = .ok () → ∃ ms, Progress S blake2b query p₀ ms p ∧ p.proto.agency = .none)
    (fun p ⟨ms, hp⟩ hnone _ => ⟨ms, hp, hnone⟩) (fun _ _ _ _ _ hx => by cases hx)
    (fun p p' ⟨ms, hp⟩ ht => hp.turned ht) (fun _ _ _ _ _ hx => by cases hx) ⟨[], hstart⟩
  rw [h] at hrun
  obtain ⟨ms, hp, hnone⟩ := hrun rfl
  rw [hp.stopped hnone]
  exact hp

/-! ### The calls -/

/-- A call takes what its slot holds at the end of the loop. -/
theorem perform_of_execute {query : Query} {p p' : Party ChainSync Message}
    (h : Party.execute (protocol S blake2b) S { p with proto := p.proto.ask query } =
      (.ok (), p')) :
    (∀ answer, p'.proto.slot query = some answer →
      ∃ s, perform S blake2b query p = (.ok answer, { p' with proto := s })) ∧
    (p'.proto.slot query = none → ∃ e s,
      perform S blake2b query p = (.panic e, { p' with proto := s })) := by
  cases query with
  | intersect points =>
      cases hslot : p'.proto.intersect <;>
        simp [perform, findIntersect, Party.call, h, ChainSync.slot, ChainSync.takeIntersect,
          hslot, Exit.map]
  | reply =>
      cases hslot : p'.proto.reply <;>
        simp [perform, requestNext, Party.call, h, ChainSync.slot, ChainSync.takeReply,
          hslot, Exit.map]

theorem Finishes.execute {query : Query} {p : Party ChainSync Message}
    (h : Finishes S blake2b query p) : ∃ p', Party.execute (protocol S blake2b) S
      { p with proto := p.proto.ask query } = (.ok (), p') := by
  rw [Finishes] at h
  cases hx : Party.execute (protocol S blake2b) S { p with proto := p.proto.ask query } with
  | mk x p' =>
      rw [hx] at h
      cases x with
      | ok u => exact ⟨p', rfl⟩
      | err e => exact absurd (by rw [hx]) (Party.execute_ne_err (protocol S blake2b) S _ e)
      | panic e => exact h.elim
      | pending bytes => exact h.elim

/-- What is left to say of a call once its loop has ended: whether its slot holds an
answer that has been handed over since. -/
theorem answered_of_execute {query : Query} {p p' : Party ChainSync Message}
    (h : Party.execute (protocol S blake2b) S { p with proto := p.proto.ask query } =
      (.ok (), p')) :
    Answered S blake2b query p ↔ ∃ answer, p'.proto.slot query = some answer ∧
      ∃ ms, p'.handed = p.handed ++ ms ∧ ∃ m ∈ ms, m.answer S blake2b query = some answer := by
  obtain ⟨hsome, hnone⟩ := perform_of_execute h
  rw [Answered]
  cases hslot : p'.proto.slot query with
  | none =>
      obtain ⟨e, s, hperform⟩ := hnone hslot
      rw [hperform]
      simp
  | some answer =>
      obtain ⟨s, hperform⟩ := hsome answer hslot
      rw [hperform]
      constructor
      · intro hanswered
        exact ⟨answer, rfl, hanswered⟩
      · rintro ⟨answer', heq, hanswered⟩
        obtain rfl := Option.some.inj heq
        exact hanswered

/-- A call whose loop ends comes out right if and only if an answer of the kind
it asked for arrives while it runs. -/
theorem answered_iff {query : Query} {p : Party ChainSync Message}
    (h : Finishes S blake2b query p) :
    Answered S blake2b query p ↔ AnswerArrives S blake2b query p := by
  obtain ⟨p', hexecute⟩ := h.execute
  rw [answered_of_execute hexecute]
  by_cases hdone : p.proto.state = .done
  · -- a client that is done returns at once, with nothing received
    have hstop : (p.proto.ask query).agency = .none := agency_eq_none_iff.mpr (.inr hdone)
    rw [Party.execute_stop (Party.turn_stop_iff.mpr hstop)] at hexecute
    cases hexecute
    refine iff_of_false ?_ fun harrives => harrives.1 hdone
    rintro ⟨answer, -, ms, hhanded, m, hmem, -⟩
    have hms : ms = [] := List.append_right_eq_self.mp hhanded.symm
    rw [hms] at hmem
    cases hmem
  · have hagency : (p.proto.ask query).agency ≠ .none := by
      rw [Ne, agency_eq_none_iff]
      rintro (hquery | hstate)
      · cases hquery
      · exact hdone hstate
    have hprogress := execute_progress query hagency hexecute
    constructor
    · rintro ⟨answer, -, ms, hhanded, m, hmem, hm⟩
      have hms := List.append_cancel_left (hhanded.symm.trans hprogress.handed)
      exact ⟨hdone, m, hms ▸ hmem, by rw [hm]; rfl⟩
    · rintro ⟨-, harrives⟩
      obtain ⟨answer, hlatest, hanswer⟩ := latest_of_answer _ harrives
      exact ⟨answer, hprogress.slot.trans hlatest, _, hprogress.handed, hanswer⟩

/-- Every call of a run that comes to the end of its loop is right exactly when
an answer of its kind arrives. A call may also wait for ever or panic in the
loop; the next one starts from what it leaves behind. -/
def Matched (S : SerdeCbor) (blake2b : Bytes → Bytes) :
    List (Query × List Bytes) → Party ChainSync Message → Prop
  | [], _ => True
  | (query, payloads) :: calls, p =>
      (Finishes S blake2b query (p.arrive payloads) →
        (Answered S blake2b query (p.arrive payloads) ↔
          AnswerArrives S blake2b query (p.arrive payloads))) ∧
      Matched S blake2b calls (perform S blake2b query (p.arrive payloads)).2

/-- **When answers match their requests.** Over every sequence of calls, whatever
the peer sends and however it packs it, a call that finishes returns the answer
to its own query if and only if a message of the kind asked for is among those
that arrive during the call. -/
theorem answers_match (S : SerdeCbor) (blake2b : Bytes → Bytes)
    (calls : List (Query × List Bytes)) (p : Party ChainSync Message) :
    Matched S blake2b calls p := by
  induction calls generalizing p with
  | nil => trivial
  | cons call calls ih => exact ⟨answered_iff, ih _⟩

/-- An intersection that is answered by a roll backward ends in a panic. -/
theorem rollBackward_not_answered :
    let p := client.arrive [[0x83, 3, 0x82, 5, 0x41, 1, 0x82, 0x82, 8, 0x41, 2, 9]]
    Finishes Cbor.serdeCbor (fun bytes => bytes) (.intersect []) p ∧
      ¬ Answered Cbor.serdeCbor (fun bytes => bytes) (.intersect []) p := by
  intro p
  let P := protocol Cbor.serdeCbor fun bytes => bytes
  let m : Message := .rollBackward ⟨5, [1]⟩ ⟨9, 8, [2]⟩
  let w : Bytes := [0x83, 3, 0x82, 5, 0x41, 1, 0x82, 0x82, 8, 0x41, 2, 9]
  have hes : ∀ e ∈ [(m, w)], P.Encoded Cbor.serdeCbor e.1 e.2 := by
    simp only [List.forall_mem_cons, List.not_mem_nil, false_implies, implies_true, and_true]
    exact Message.encoded Cbor.serdeCbor_lawful rfl
  let asked : ChainSync := ⟨some (.intersect []), none, none, .intersect⟩
  let p₁ : Party ChainSync Message := { p with proto := p.proto.ask (.intersect []) }
  let p₂ : Party ChainSync Message :=
    { proto := asked, channel := ⟨2, [w], [], [[0x82, 4, 0x80]]⟩, log := [.tx (.findIntersect [])] }
  let p₃ := p₂.afterRecv P [m] [] []
  have h₁ : Party.turn P Cbor.serdeCbor p₁ = .next p₂ :=
    Party.turn_send_ok (by decide) rfl rfl rfl
  have h₂ : Party.turn P Cbor.serdeCbor p₂ = .next p₃ :=
    Party.turn_recv_whole hes (by decide) (by decide) rfl rfl rfl
  have h₃ : Party.turn P Cbor.serdeCbor p₃ = .stop := Party.turn_stop_iff.mpr rfl
  have hexecute : Party.execute P Cbor.serdeCbor p₁ = (.ok (), p₃) := by
    rw [Party.execute_next h₁, Party.execute_next h₂, Party.execute_stop h₃]
  obtain ⟨e, s, hperform⟩ := (perform_of_execute hexecute).2 rfl
  refine ⟨?_, ?_⟩
  · rw [Finishes, hexecute]
    trivial
  · rw [Answered, hperform]
    exact id

end Ouroboros.Chainsync
