import Ouroboros.Library.Transition
import Ouroboros.Protocols.Session

/-!
The state of a protocol and the bytes on the wire.

`send` changes the state, and the frame of its message is written after that, in
four pieces. If the future is dropped on the way the state stays ahead: it says
that a message was sent of which nothing is on the wire, or a part. As long as this
does not happen, and the one write of a payload takes all of it, what the state
says is true whenever no call is in progress. A peer can make a chain-sync client's
state say more, by a message that is a client's.
-/

namespace Ouroboros

open Framing Session

variable {σ μ : Type}

/-- The message of a log entry, if it is one that `recv` has taken. -/
def Event.took : Event σ μ → Option μ
  | .rx _ message (.ok ()) _ => some message
  | .rx _ _ (.err _) _ | .rx _ _ (.panic _) _ | .tx _ => none

def lastMade (log : List (Event σ μ)) : Option μ := (log.filterMap Event.told).getLast?

def lastTaken (log : List (Event σ μ)) : Option μ := (log.filterMap Event.took).getLast?

@[simp] theorem lastMade_tx (log : List (Event σ μ)) (m : μ) :
    lastMade (log ++ [.tx m]) = some m := by
  simp [lastMade, Event.told]

@[simp] theorem lastMade_rx (log : List (Event σ μ)) (s t : σ) (m : μ) (r : Outcome Unit) :
    lastMade (log ++ [.rx s m r t]) = lastMade log := by
  simp [lastMade, Event.told]

@[simp] theorem lastTaken_ok (log : List (Event σ μ)) (s t : σ) (m : μ) :
    lastTaken (log ++ [.rx s m (.ok ()) t]) = some m := by
  simp [lastTaken, Event.took]

theorem lastTaken_rejected (log : List (Event σ μ)) (s t : σ) (m : μ) {r : Outcome Unit}
    (hr : r ≠ .ok ()) : lastTaken (log ++ [.rx s m r t]) = lastTaken log := by
  cases r with
  | ok u => exact absurd rfl hr
  | err e => simp [lastTaken, Event.took]
  | panic e => simp [lastTaken, Event.took]

/-- What the states of a protocol say of the messages sent, and the logs after which
the peer has made the state say so. -/
structure Testimony (σ μ : Type) where
  asserts : σ → μ → Prop
  misled : List (Event σ μ) → Prop

namespace Testimony

def Speaks (T : Testimony σ μ) (s : σ) : Prop := ∃ m, T.asserts s m

/-- What the state says is what was sent last, or the peer has misled it. -/
def Accounted (T : Testimony σ μ) (log : List (Event σ μ)) (s : σ) : Prop :=
  T.Speaks s → (∃ m, lastMade log = some m ∧ T.asserts s m) ∨ T.misled log

/-- How a protocol comes to such states. `theirs` are the states in which `recv` may be
called. -/
structure Sound (T : Testimony σ μ) (P : Protocol σ μ) (api : Api σ) (theirs : σ → Prop) :
    Prop where
  send : ∀ {s m s'}, P.agency s = P.role s → P.send s = (.ok m, s') →
    T.Speaks s' ∨ (∃ t, T.asserts t m) → T.asserts s' m
  refuse : ∀ {s r s'}, P.agency s = P.role s → P.send s = (r, s') → (∀ m, r ≠ .ok m) →
    ¬ T.Speaks s'
  waits : ∀ {s}, P.agency s ≠ .none → P.agency s ≠ P.role s → theirs s
  recv : ∀ {log s}, theirs s → T.Accounted log s → ∀ m, theirs (P.recv s m).2 ∧
    T.Accounted (log ++ [.rx s m (P.recv s m).1 (P.recv s m).2]) (P.recv s m).2
  setup : ∀ {s setup finish}, api.calls s setup finish → ∀ m, T.asserts (setup s) m ↔ T.asserts s m
  finish : ∀ {s setup finish}, api.calls s setup finish →
    ∀ t m, T.asserts (finish t) m ↔ T.asserts t m
  asides : ∀ {s s'}, api.asides s s' → ∀ m, T.asserts s' m ↔ T.asserts s m

variable {T : Testimony σ μ} {P : Protocol σ μ} {S : SerdeCbor} {api : Api σ}
  {theirs : σ → Prop} {log : List (Event σ μ)} {s s' : σ}

theorem speaks_congr (h : ∀ m, T.asserts s' m ↔ T.asserts s m) : T.Speaks s' ↔ T.Speaks s :=
  exists_congr h

theorem Accounted.congr (haccounted : T.Accounted log s) (h : ∀ m, T.asserts s' m ↔ T.asserts s m) :
    T.Accounted log s' := by
  intro hspeaks
  rcases haccounted ((speaks_congr h).mp hspeaks) with ⟨m, hm, hasserts⟩ | hmisled
  · exact .inl ⟨m, hm, (h m).mpr hasserts⟩
  · exact .inr hmisled

/-- Entries that are no messages made. -/
theorem Accounted.of_log {log' : List (Event σ μ)} (haccounted : T.Accounted log s)
    (hlast : lastMade log' = lastMade log) (hmisled : T.misled log → T.misled log') :
    T.Accounted log' s := by
  intro hspeaks
  rw [hlast]
  exact (haccounted hspeaks).imp_right hmisled

/-- The messages of a payload, one after the other. -/
theorem Sound.deliver (h : T.Sound P api theirs) (ms : List μ) (htheirs : theirs s)
    (haccounted : T.Accounted log s) :
    T.Accounted (log ++ P.deliveries ms s) (P.deliver ms s).2 ∧
      lastMade (log ++ P.deliveries ms s) = lastMade log := by
  induction ms generalizing log s with
  | nil =>
      rw [Protocol.deliveries, List.append_nil]
      exact ⟨haccounted, rfl⟩
  | cons m ms ih =>
      obtain ⟨htheirs', haccounted'⟩ := h.recv htheirs haccounted m
      cases hm : P.recv s m with
      | mk r t =>
          rw [hm] at htheirs' haccounted'
          cases r with
          | ok u =>
              obtain ⟨hrest, hlast⟩ := ih htheirs' haccounted'
              rw [Protocol.deliver_cons_ok hm, Protocol.deliveries_cons_ok hm]
              rw [List.append_assoc] at hrest hlast
              exact ⟨hrest, hlast.trans (lastMade_rx log s t m (.ok u))⟩
          | err e =>
              simp only [Protocol.deliver, Protocol.deliveries, hm]
              exact ⟨haccounted', lastMade_rx log s t m (.err e)⟩
          | panic e =>
              simp only [Protocol.deliver, Protocol.deliveries, hm]
              exact ⟨haccounted', lastMade_rx log s t m (.panic e)⟩

end Testimony

/-- A whole number of frames. -/
def Whole (bytes : Bytes) : Prop := ∃ fs : List Mux.Frame, bytes = encode fs

theorem Whole.append {xs : Bytes} (h : Whole xs) {c : Mux.Call}
    (hc : c.payload.length < 2 ^ 16) : Whole (xs ++ c.wire) := by
  obtain ⟨fs, rfl⟩ := h
  refine ⟨fs ++ [c.frame hc], ?_⟩
  rw [encode_append, encode_cons, encode_nil, List.append_nil]
  rfl

namespace Session

variable {T : Testimony σ μ} {P : Protocol σ μ} {S : SerdeCbor} {api : Api σ}
  {theirs : σ → Prop} {s s' : Session σ μ} {a : Action}

/-- What has been written since the last message was made is the frame of `m`. -/
def Written (P : Protocol σ μ) (S : SerdeCbor) (s : Session σ μ) (m : μ) : Prop :=
  ∃ c : Mux.Call, P.toBytes S m = .ok c.payload ∧ c.idx = s.party.channel.idx ∧
    c.payload.length < 2 ^ 16 ∧ s.since = c.wire

theorem Written.since_ne_nil {m : μ} (h : s.Written P S m) : s.since ≠ [] := by
  obtain ⟨c, -, -, -, hwire⟩ := h
  rw [hwire]
  apply List.ne_nil_of_length_pos
  rw [c.length_wire]
  omega

/-- There is no partial frame on the wire, and a message that was sent as the state says
is there: it is the last one that was made. -/
structure Abreast (P : Protocol σ μ) (S : SerdeCbor) (T : Testimony σ μ) (s : Session σ μ) :
    Prop where
  whole : Whole (s.before ++ s.since)
  written : T.Speaks s.party.proto →
    ∃ m, lastMade s.party.log = some m ∧ T.asserts s.party.proto m ∧ s.Written P S m

/-- A call is left before it has written anything, if the state does not speak; the
payload is written at once, and fits its frame; a call does not end with a state that
the peer has misled. -/
def Careful (T : Testimony σ μ) (s : Session σ μ) : Action → Prop
  | .abandon | .writeFails => s.since = [] ∧ ¬ T.Speaks s.party.proto
  | .garble => ¬ T.Speaks s.party.proto
  | .payload n => ∀ words data, s.position = .writing words data →
      n = data.length ∧ data.length < 2 ^ 16
  | .leave | .interrupt | .unwind => ¬ T.misled s.party.log
  | _ => True

/-- Between two messages: the last one is written, if the state can say so. -/
structure Settled (P : Protocol σ μ) (S : SerdeCbor) (T : Testimony σ μ) (s : Session σ μ) :
    Prop where
  whole : Whole (s.before ++ s.since)
  written : ∀ m, lastMade s.party.log = some m → (∃ t, T.asserts t m) → s.Written P S m

/-- A message has been made. -/
structure Making (T : Testimony σ μ) (s : Session σ μ) (m : μ) : Prop where
  last : lastMade s.party.log = some m
  speaks : (∃ t, T.asserts t m) → T.Speaks s.party.proto

/-- How much of its frame is on the wire. -/
def Stage (P : Protocol σ μ) (S : SerdeCbor) (T : Testimony σ μ) (theirs : σ → Prop)
    (s : Session σ μ) : Prop :=
  match s.position with
  | .outside => s.Settled P S T ∧ (T.Speaks s.party.proto → ¬ T.misled s.party.log)
  | .loop | .panicked => s.Settled P S T
  | .receiving _ => s.Settled P S T ∧ theirs s.party.proto
  | .made m => s.since = [] ∧ s.Making T m
  | .locking data => s.since = [] ∧ ∃ m, s.Making T m ∧ P.toBytes S m = .ok data
  | .writing words data => ∃ m, s.Making T m ∧ P.toBytes S m = .ok data ∧
      ∃ timestamp, s.since ++ words.flatten = (s.frame timestamp data).header

/-- The invariant of a session. -/
structure Orderly (P : Protocol σ μ) (S : SerdeCbor) (T : Testimony σ μ) (theirs : σ → Prop)
    (s : Session σ μ) : Prop where
  before : Whole s.before
  accounted : T.Accounted s.party.log s.party.proto
  finish : ∀ t m, T.asserts (s.finish t) m ↔ T.asserts t m
  stage : s.Stage P S T theirs

theorem Settled.frame (h : s.Settled P S T) (hbefore : s'.before = s.before)
    (hsince : s'.since = s.since) (hidx : s'.party.channel.idx = s.party.channel.idx)
    (hlast : lastMade s'.party.log = lastMade s.party.log) : s'.Settled P S T where
  whole := by
    rw [hbefore, hsince]
    exact h.whole
  written m hm hasserts := by
    rw [hlast] at hm
    obtain ⟨c, hdata, hc, hlen, hwire⟩ := h.written m hm hasserts
    exact ⟨c, hdata, hc.trans hidx.symm, hlen, hsince.trans hwire⟩

/-- A message of which the state does not speak may be lost. -/
theorem Making.settled {m : μ} (h : s.Making T m) (hbefore : Whole s.before)
    (hsince : s.since = []) (hsilent : ¬ T.Speaks s.party.proto) : s.Settled P S T where
  whole := by rwa [hsince, List.append_nil]
  written m' hm' hasserts := by
    have heq : m' = m := Option.some.inj (hm'.symm.trans h.last)
    exact absurd (h.speaks (heq ▸ hasserts)) hsilent

namespace Orderly

/-- Payloads may arrive at any time. -/
theorem arrive (h : s.Orderly P S T theirs) (payload : Bytes) :
    Orderly P S T theirs { s with party := s.party.arrive [payload] } where
  before := h.before
  accounted := h.accounted
  finish := h.finish
  stage := by
    obtain ⟨party, position, finish, taken, before, since⟩ := s
    have hstage := h.stage
    rw [Stage] at hstage ⊢
    cases position with
    | outside => exact ⟨hstage.1.frame rfl rfl rfl rfl, hstage.2⟩
    | receiving bytes => exact ⟨hstage.1.frame rfl rfl rfl rfl, hstage.2⟩
    | loop => exact hstage.frame rfl rfl rfl rfl
    | panicked => exact hstage.frame rfl rfl rfl rfl
    | made m => exact ⟨hstage.1, hstage.2.last, hstage.2.speaks⟩
    | locking data =>
        obtain ⟨hsince, m, hm, hdata⟩ := hstage
        exact ⟨hsince, m, ⟨hm.last, hm.speaks⟩, hdata⟩
    | writing words data =>
        obtain ⟨m, hm, hdata, hheader⟩ := hstage
        exact ⟨m, ⟨hm.last, hm.speaks⟩, hdata, hheader⟩

/-- The party after a payload, whether or not its messages were taken. -/
theorem absorbed (hT : T.Sound P api theirs) (h : s.Orderly P S T theirs) {bytes q : Bytes}
    {qs : List Bytes} {p : Party σ μ} {r : Outcome Unit} (hposition : s.position = .receiving bytes)
    (habsorb : Party.absorb P S bytes q (s.party.dequeue qs) = (r, p)) :
    T.Accounted p.log p.proto ∧ ∀ {s' : Session σ μ}, s'.party = p → s'.before = s.before →
      s'.since = s.since → s'.Settled P S T := by
  have hstage := h.stage
  rw [Stage, hposition] at hstage
  obtain ⟨hsettled, htheirs⟩ := hstage
  obtain ⟨ms, tail, carry, -, rfl, -⟩ := absorb_cases habsorb
  obtain ⟨haccounted, hlast⟩ := hT.deliver ms htheirs h.accounted
  refine ⟨haccounted, fun hparty hbefore hsince => ?_⟩
  apply hsettled.frame hbefore hsince
  · rw [hparty]
    rfl
  · rw [hparty]
    exact hlast

/-- A message is lost of which the state does not speak. -/
theorem lose (h : s.Orderly P S T theirs) {m : μ} (hm : s.Making T m) (hsince : s.since = [])
    (hsilent : ¬ T.Speaks s.party.proto) :
    Orderly P S T theirs { s with position := .panicked } ∧
      Orderly P S T theirs { s with position := .outside } := by
  have hsettled : s.Settled P S T := hm.settled h.before hsince hsilent
  refine ⟨⟨h.before, h.accounted, h.finish, ?_⟩, ⟨h.before, h.accounted, h.finish, ?_, ?_⟩⟩
  · exact hsettled.frame rfl rfl rfl rfl
  · exact hsettled.frame rfl rfl rfl rfl
  · exact fun hspeaks => absurd hspeaks hsilent

/-- The payload is written in one go, and with it the frame. -/
theorem complete (h : s.Orderly P S T theirs) {data : Bytes}
    (hposition : s.position = .writing [] data) (hlen : data.length < 2 ^ 16) :
    Orderly P S T theirs
      { s with
        party := { s.party with
          channel := { s.party.channel with sent := s.party.channel.sent ++ [data] } }
        position := .loop
        since := s.since ++ data.take data.length } := by
  have hstage := h.stage
  rw [Stage, hposition] at hstage
  obtain ⟨m, hm, hdata, timestamp, hheader⟩ := hstage
  have hwire : s.since ++ data.take data.length = (s.frame timestamp data).wire := by
    rw [List.flatten_nil, List.append_nil] at hheader
    rw [hheader, List.take_length]
    rfl
  refine ⟨h.before, h.accounted, h.finish, ?_, ?_⟩
  · rw [hwire]
    exact h.before.append hlen
  · intro m' hm' _
    obtain rfl : m' = m := Option.some.inj (hm'.symm.trans hm.last)
    exact ⟨s.frame timestamp data, hdata, rfl, hlen, hwire⟩

/-- **The step lemma.** -/
theorem does (hT : T.Sound P api theirs) (h : s.Orderly P S T theirs)
    (hdoes : Does P S api s a s') (hcareful : s.Careful T a) : s'.Orderly P S T theirs := by
  have hstage := h.stage
  rw [Stage] at hstage
  cases hdoes with
  | arrive payload => exact h.arrive payload
  | enter hposition hcalls =>
      rw [hposition] at hstage
      exact ⟨h.before, h.accounted.congr (hT.setup hcalls), hT.finish hcalls,
        hstage.1.frame rfl rfl rfl rfl⟩
  | aside hposition hasides =>
      rw [hposition] at hstage
      refine ⟨h.before, h.accounted.congr (hT.asides hasides), h.finish, ?_⟩
      rw [Stage]
      simp only [hposition]
      refine ⟨hstage.1.frame rfl rfl rfl rfl, fun hspeaks => hstage.2 ?_⟩
      exact (Testimony.speaks_congr (hT.asides hasides)).mp hspeaks
  | leave hposition _ =>
      rw [hposition] at hstage
      exact ⟨h.before, h.accounted.congr (h.finish _), h.finish,
        hstage.frame rfl rfl rfl rfl, fun _ => hcareful⟩
  | await hposition hnone hrole =>
      rw [hposition] at hstage
      exact ⟨h.before, h.accounted, h.finish, hstage.frame rfl rfl rfl rfl, hT.waits hnone hrole⟩
  | receive hposition _ habsorb =>
      obtain ⟨haccounted, hsettled⟩ := h.absorbed hT hposition habsorb
      exact ⟨h.before, haccounted, h.finish, hsettled rfl rfl rfl⟩
  | reject hposition _ habsorb =>
      obtain ⟨haccounted, hsettled⟩ := h.absorbed hT hposition habsorb
      exact ⟨h.before, haccounted, h.finish, hsettled rfl rfl rfl⟩
  | @send m proto hposition _ hrole hsend =>
      rw [hposition] at hstage
      refine ⟨hstage.whole, fun hspeaks => ?_, h.finish, rfl, lastMade_tx _ m, ?_⟩
      · exact .inl ⟨m, lastMade_tx _ m, hT.send hrole hsend (.inl hspeaks)⟩
      · exact fun hasserts => ⟨m, hT.send hrole hsend (.inr hasserts)⟩
  | refuse hposition _ hrole hsend hr =>
      rw [hposition] at hstage
      exact ⟨h.before, fun hspeaks => absurd hspeaks (hT.refuse hrole hsend hr), h.finish,
        hstage.frame rfl rfl rfl rfl⟩
  | serialise hposition hdata =>
      rw [hposition] at hstage
      exact ⟨h.before, h.accounted, h.finish, hstage.1, _, ⟨hstage.2.last, hstage.2.speaks⟩, hdata⟩
  | garble hposition _ =>
      rw [hposition] at hstage
      exact (h.lose hstage.2 hstage.1 hcareful).1
  | lock timestamp hposition =>
      rw [hposition] at hstage
      obtain ⟨hsince, m, hm, hdata⟩ := hstage
      refine ⟨h.before, h.accounted, h.finish, m, ⟨hm.last, hm.speaks⟩, hdata, timestamp, ?_⟩
      simp [hsince, frame, Mux.Call.header]
  | @word chunk rest data words hposition _ =>
      rw [hposition] at hstage
      obtain ⟨m, hm, hdata, timestamp, hheader⟩ := hstage
      refine ⟨h.before, h.accounted, h.finish, m, ⟨hm.last, hm.speaks⟩, hdata, timestamp, ?_⟩
      refine Eq.trans ?_ hheader
      by_cases hrest : rest = []
      · simp [hrest]
      · simp [hrest]
  | @payload data n hposition _ =>
      obtain ⟨rfl, hlen⟩ := hcareful [] data hposition
      exact h.complete hposition hlen
  | writeFails hposition =>
      rw [hposition] at hstage
      obtain ⟨m, hm, -, -⟩ := hstage
      exact (h.lose hm hcareful.1 hcareful.2).1
  | interrupt hposition =>
      rw [hposition] at hstage
      exact ⟨h.before, h.accounted, h.finish, hstage.1.frame rfl rfl rfl rfl, fun _ => hcareful⟩
  | abandonLock hposition =>
      rw [hposition] at hstage
      obtain ⟨-, m, hm, -⟩ := hstage
      exact (h.lose hm hcareful.1 hcareful.2).2
  | abandon hposition =>
      rw [hposition] at hstage
      obtain ⟨m, hm, -, -⟩ := hstage
      exact (h.lose hm hcareful.1 hcareful.2).2
  | unwind hposition =>
      rw [hposition] at hstage
      exact ⟨h.before, h.accounted, h.finish, hstage.frame rfl rfl rfl rfl, fun _ => hcareful⟩

/-- **The run lemma.** -/
theorem run (hT : T.Sound P api theirs) (h : s.Orderly P S T theirs)
    (hrun : Run P S api (Careful T) s s') : s'.Orderly P S T theirs := by
  refine Transition.invariant (fun s s' hs hstep => ?_) hrun h
  obtain ⟨a, hcareful, hdoes⟩ := hstep
  exact hs.does hT hdoes hcareful

theorem abreast (h : s.Orderly P S T theirs) (hposition : s.position = .outside) :
    s.Abreast P S T := by
  have hstage := h.stage
  rw [Stage, hposition] at hstage
  refine ⟨hstage.1.whole, fun hspeaks => ?_⟩
  rcases h.accounted hspeaks with ⟨m, hm, hasserts⟩ | hmisled
  · exact ⟨m, hm, hasserts, hstage.1.written m hm ⟨_, hasserts⟩⟩
  · exact absurd hmisled (hstage.2 hspeaks)

end Orderly

/-! ### A future that is dropped -/

/-- The data of the message that is being written. -/
def Sending (s : Session σ μ) (data : Bytes) : Prop :=
  s.position = .locking data ∨ ∃ words, s.position = .writing words data

/-- A part of a frame is no frame. -/
theorem not_whole {xs ys words : Bytes} (hxs : Whole xs) {c : Mux.Call} (hpayload : c.payload ≠ [])
    (hlen : c.payload.length < 2 ^ 16) (hne : ys ≠ []) (hheader : ys ++ words = c.header) :
    ¬ Whole (xs ++ ys) := by
  rintro ⟨gs, hgs⟩
  obtain ⟨fs, rfl⟩ := hxs
  obtain ⟨rest, -, rfl⟩ := encode_append_eq hgs
  cases rest with
  | nil => exact hne rfl
  | cons f rest =>
      -- the bytes are too few for more than a header, which would announce a payload
      have hlength := congrArg List.length hheader
      rw [encode_cons, List.append_assoc, List.length_append, List.length_append,
        f.length_bytes, c.length_header] at hlength
      have hsize : Mux.format.size = 8 := rfl
      have hheader' : f.header ++ (f.payload ++ (encode rest ++ words)) = c.header ++ [] := by
        rw [List.append_nil, ← hheader, encode_cons, Frame.bytes]
        simp only [List.append_assoc]
      have hsame : f.header = c.header :=
        (List.append_inj hheader' (f.header_length.trans c.length_header.symm)).1
      have hannounced := f.payload_length
      rw [hsame, c.length_announced, Nat.mod_eq_of_lt hlen] at hannounced
      have hpos := List.length_pos_iff.mpr hpayload
      omega

/-- A future that is dropped while it sends leaves state and wire in step exactly if it
has written nothing, and the state does not speak. -/
theorem Orderly.abandon_iff (hT : T.Sound P api theirs) (h : s.Orderly P S T theirs)
    (hdoes : Does P S api s .abandon s')
    (hfits : ∀ data, s.Sending data → data ≠ [] ∧ data.length < 2 ^ 16) :
    s'.Abreast P S T ↔ s.Careful T .abandon := by
  have hstage := h.stage
  rw [Stage] at hstage
  constructor
  · intro habreast
    cases hdoes with
    | abandonLock hposition =>
        rw [hposition] at hstage
        refine ⟨hstage.1, fun hspeaks => ?_⟩
        obtain ⟨m, -, -, hwritten⟩ := habreast.written hspeaks
        exact hwritten.since_ne_nil hstage.1
    | @abandon words data hposition =>
        obtain ⟨hdata, hlen⟩ := hfits data (.inr ⟨words, hposition⟩)
        rw [hposition] at hstage
        obtain ⟨m, hm, hbytes, timestamp, hheader⟩ := hstage
        refine ⟨?_, fun hspeaks => ?_⟩
        · by_contra hne
          exact not_whole h.before (c := s.frame timestamp data) hdata hlen hne hheader
            habreast.whole
        · obtain ⟨m', hm', -, c, hbytes', -, -, hwire⟩ := habreast.written hspeaks
          obtain rfl : m' = m := Option.some.inj (hm'.symm.trans hm.last)
          obtain rfl : c.payload = data := Outcome.ok.inj (hbytes'.symm.trans hbytes)
          have hpos := List.length_pos_iff.mpr hdata
          have hlength := congrArg List.length hheader
          rw [show s.since = c.wire from hwire, List.length_append, c.length_wire,
            Mux.Call.length_header] at hlength
          omega
  · intro hcareful
    have hposition : s'.position = .outside := by cases hdoes <;> rfl
    exact (h.does hT hdoes hcareful).abreast hposition

/-- A new protocol value, behind whole frames, does not speak. -/
theorem orderly_start {T : Testimony σ μ} {theirs : σ → Prop} {p : Party σ μ} {before : Bytes}
    (hbefore : Whole before) (hlog : p.log = []) (hsilent : ¬ T.Speaks p.proto) :
    (start p before).Orderly P S T theirs where
  before := hbefore
  accounted hspeaks := absurd hspeaks hsilent
  finish _ _ := Iff.rfl
  stage := by
    refine ⟨⟨by rwa [start, List.append_nil], fun m hm => ?_⟩,
      fun hspeaks => absurd hspeaks hsilent⟩
    simp [start, hlog, lastMade] at hm

end Session

/-! ### The three protocols -/

namespace Chainsync

/-- `Intersect` says that `FindIntersect` was sent, and `CanAwait` that `RequestNext` was.
The client also takes a `RequestNext` of its peer. -/
def testimony : Testimony ChainSync Message where
  asserts s m :=
    (s.state = .intersect ∧ ∃ points, m = .findIntersect points) ∨
      (s.state = .canAwait ∧ m = .requestNext)
  misled log := lastTaken log = some .requestNext ∧ lastMade log ≠ some .requestNext

theorem speaks_iff {s : ChainSync} :
    testimony.Speaks s ↔ s.state = .intersect ∨ s.state = .canAwait := by
  constructor
  · rintro ⟨m, ⟨h, -⟩ | ⟨h, -⟩⟩
    · exact .inl h
    · exact .inr h
  · rintro (h | h)
    · exact ⟨.findIntersect [], .inl ⟨h, [], rfl⟩⟩
    · exact ⟨.requestNext, .inr ⟨h, rfl⟩⟩

/-- Only a `RequestNext` of the peer makes the state speak. -/
theorem recv_accounted (S : SerdeCbor) (blake2b : Bytes → Bytes)
    {log : List (Event ChainSync Message)} {s : ChainSync} (haccounted : testimony.Accounted log s)
    (m : Message) :
    testimony.Accounted (log ++ [.rx s m (ChainSync.recv S blake2b s m).1
      (ChainSync.recv S blake2b s m).2]) (ChainSync.recv S blake2b s m).2 := by
  have hidle : ∀ {log : List (Event ChainSync Message)} {t : ChainSync},
      t.state ≠ .intersect → t.state ≠ .canAwait → testimony.Accounted log t := by
    intro log t hintersect hcanAwait hspeaks
    rcases speaks_iff.mp hspeaks with h | h
    · exact absurd h hintersect
    · exact absurd h hcanAwait
  have hrejected : ∀ {r : Outcome Unit}, r ≠ .ok () →
      testimony.Accounted (log ++ [.rx s m r s]) s := by
    intro r hr
    apply haccounted.of_log (lastMade_rx log s s m r)
    rintro ⟨htaken, hmade⟩
    refine ⟨?_, by rwa [lastMade_rx]⟩
    rwa [lastTaken_rejected log s s m hr]
  cases m with
  | requestNext =>
      intro _
      by_cases hlast : lastMade log = some .requestNext
      · exact .inl ⟨.requestNext, by rwa [lastMade_rx], .inr ⟨rfl, rfl⟩⟩
      · exact .inr ⟨lastTaken_ok log s _ .requestNext, by rwa [lastMade_rx]⟩
  | rollForward header tip =>
      simp only [ChainSync.recv]
      cases BlockHeader.tryInto S blake2b header with
      | ok header => exact hidle (by simp) (by simp)
      | err e => exact hrejected (by simp)
      | panic e => exact hrejected (by simp)
  | findIntersect points => exact hrejected (by simp [ChainSync.recv])
  | _ => exact hidle (by simp [ChainSync.recv]) (by simp [ChainSync.recv])

theorem testimony_sound (S : SerdeCbor) (blake2b : Bytes → Bytes) :
    testimony.Sound (protocol S blake2b) api fun _ => True where
  send {s m s'} _ hsend _ := by
    obtain ⟨query, intersect, reply, state⟩ := s
    cases state with
    | idle =>
        rcases query with _ | points | _
        · cases hsend
        · cases hsend
          exact .inl ⟨rfl, points, rfl⟩
        · cases hsend
          exact .inr ⟨rfl, rfl⟩
    | _ => cases hsend
  refuse {s r s'} hrole hsend hr hspeaks := by
    obtain ⟨query, intersect, reply, state⟩ := s
    cases state with
    | idle =>
        rcases query with _ | points | _
        · cases hrole
        · cases hsend
          exact hr _ rfl
        · cases hsend
          exact hr _ rfl
    | _ => cases query <;> cases hrole
  waits _ _ := trivial
  recv _ haccounted m := ⟨trivial, recv_accounted S blake2b haccounted m⟩
  setup hcalls m := by
    cases hcalls with
    | findIntersect points => exact Iff.rfl
    | requestNext => exact Iff.rfl
  finish hcalls t m := by
    obtain ⟨query, intersect, reply, state⟩ := t
    cases hcalls with
    | findIntersect points => cases intersect <;> exact Iff.rfl
    | requestNext => cases reply <;> exact Iff.rfl
  asides h := h.elim

end Chainsync

namespace Blockfetch

/-- `Busy` says that the range was requested. -/
def testimony : Testimony BlockFetch Message where
  asserts s m := s.state = .busy ∧ m = .requestRange s.config.first s.config.last
  misled _ := False

theorem recv_busy {s : BlockFetch} {m : Message} (h : (s.recv m).2.state = .busy) :
    (s.recv m).2 = s := by
  obtain ⟨config, state, result, running, done⟩ := s
  cases state with
  | busy => cases m <;> first | rfl | cases h
  | streaming => cases m <;> first | rfl | cases h
  | _ => cases h

theorem pop_asserts (s : BlockFetch) (m : Message) :
    testimony.asserts s.pop.2 m ↔ testimony.asserts s m := by
  obtain ⟨config, state, result, running, done⟩ := s
  cases result <;> exact Iff.rfl

theorem testimony_sound : testimony.Sound protocol api fun _ => True where
  send {s m s'} _ hsend h := by
    obtain ⟨config, state, result, running, done⟩ := s
    cases done with
    | false =>
        cases state with
        | idle =>
            cases hsend
            exact ⟨rfl, rfl⟩
        | _ => cases hsend
    | true =>
        cases state with
        | idle =>
            cases hsend
            rcases h with ⟨m', h, -⟩ | ⟨t, -, h⟩
            · cases h
            · cases h
        | _ => cases hsend
  refuse {s r s'} hrole hsend hr := by
    obtain ⟨config, state, result, running, done⟩ := s
    rintro ⟨m, hbusy, -⟩
    cases state with
    | idle =>
        cases done with
        | false =>
            cases hsend
            exact hr _ rfl
        | true =>
            cases hsend
            cases hbusy
    | _ => cases running <;> cases hrole
  waits _ _ := trivial
  recv {log s} _ haccounted m := by
    refine ⟨trivial, ?_⟩
    rintro ⟨m', hbusy, hm'⟩
    have hs : (protocol.recv s m).2 = s := recv_busy hbusy
    rw [hs] at hbusy hm'
    rw [lastMade_rx, hs]
    exact haccounted ⟨m', hbusy, hm'⟩
  setup hcalls m := by
    cases hcalls with
    | run => exact Iff.rfl
    | done => exact Iff.rfl
    | next _ _ => exact Iff.rfl
  finish hcalls t m := by
    cases hcalls with
    | run => exact Iff.rfl
    | done => exact Iff.rfl
    | next _ _ => exact pop_asserts t m
  asides {s s'} h m := by
    obtain ⟨-, rfl⟩ := h
    exact pop_asserts s m

end Blockfetch

namespace Handshake

/-- `Confirm` says, in a client, that the versions were proposed. -/
def testimony : Testimony Handshake Message where
  asserts s m := s.role = .client ∧ s.state = .confirm ∧
    m = .proposeVersions (s.versions.map fun v => (v, s.networkMagic))
  misled _ := False

theorem testimony_sound (S : SerdeCbor) :
    testimony.Sound (protocol S) api fun s => s.role = .client → s.state ≠ .propose where
  send {s m s'} hrole hsend h := by
    obtain ⟨role, versions, networkMagic, state, version⟩ := s
    cases state with
    | propose =>
        cases hsend
        cases hrole
        exact ⟨rfl, rfl, rfl⟩
    | confirm =>
        simp only [protocol, Handshake.send] at hsend
        split at hsend
        · cases hsend
        · cases hsend
          rcases h with ⟨m', -, h, -⟩ | ⟨t, -, -, h⟩
          · cases h
          · cases h
    | done => cases hsend
  refuse {s r s'} _ hsend hr := by
    obtain ⟨role, versions, networkMagic, state, version⟩ := s
    rintro ⟨m, -, hconfirm, -⟩
    cases state with
    | propose =>
        cases hsend
        exact hr _ rfl
    | confirm =>
        simp only [protocol, Handshake.send] at hsend
        split at hsend
        · cases hsend
          cases hconfirm
        · cases hsend
          exact hr _ rfl
    | done =>
        cases hsend
        cases hconfirm
  waits {s} _ hrole hclient hstate := by
    apply hrole
    simp only [protocol, Handshake.agency, hstate, hclient]
  recv {log s} htheirs haccounted m := by
    obtain ⟨hpropose, hkept⟩ := recv_state s m
    obtain ⟨hrole, -⟩ := recv_config s m
    refine ⟨fun _ => hpropose, ?_⟩
    rintro ⟨m', hclient, hconfirm, hm'⟩
    have hs : ((protocol S).recv s m).2 = s := hkept (htheirs (hrole.symm.trans hclient)) hconfirm
    rw [hs] at hclient hconfirm hm'
    rw [lastMade_rx, hs]
    exact haccounted ⟨m', hclient, hconfirm, hm'⟩
  setup hcalls m := by
    obtain ⟨rfl, -⟩ := hcalls
    exact Iff.rfl
  finish hcalls t m := by
    obtain ⟨-, rfl⟩ := hcalls
    exact Iff.rfl
  asides h := h.elim

end Handshake

/-- In every careful run that begins with `p`, state and wire are in step whenever no call
is in progress. A future that is dropped while it sends a payload that fits its frame
leaves them so exactly if this is careful. -/
def InStep (P : Protocol σ μ) (S : SerdeCbor) (api : Api σ) (T : Testimony σ μ) (before : Bytes)
    (p : Party σ μ) : Prop :=
  ∀ s, Run P S api (Careful T) (start p before) s →
    (s.position = .outside → s.Abreast P S T) ∧
      ∀ s', Does P S api s .abandon s' →
        (∀ data, s.Sending data → data ≠ [] ∧ data.length < 2 ^ 16) →
        (s'.Abreast P S T ↔ s.Careful T .abandon)

theorem inStep {T : Testimony σ μ} {P : Protocol σ μ} {S : SerdeCbor} {api : Api σ}
    {theirs : σ → Prop} (hT : T.Sound P api theirs) {before : Bytes} (hbefore : Whole before)
    {p : Party σ μ} (hlog : p.log = []) (hsilent : ¬ T.Speaks p.proto) :
    InStep P S api T before p := by
  intro s hrun
  have h : s.Orderly P S T theirs := (orderly_start hbefore hlog hsilent).run hT hrun
  exact ⟨h.abreast, fun s' hdoes hfits => h.abandon_iff hT hdoes hfits⟩

/-- **The state does not run ahead of the wire.** Behind any frames that are on the wire
already, a chain-sync client, a block-fetch client, and a handshake client or server
stay in step with it in every careful run. -/
theorem state_in_step (S : SerdeCbor) (blake2b : Bytes → Bytes) {before : Bytes}
    (hbefore : Whole before) :
    InStep (Chainsync.protocol S blake2b) S Chainsync.api Chainsync.testimony before
        Chainsync.client ∧
      (∀ b p, Blockfetch.Builder.client b = .ok p →
        InStep Blockfetch.protocol S Blockfetch.api Blockfetch.testimony before p) ∧
      ∀ b role p, Handshake.HandshakeBuilder.build b role = .ok p →
        InStep (Handshake.protocol S) S Handshake.api Handshake.testimony before p := by
  refine ⟨?_, ?_, ?_⟩
  · apply inStep (Chainsync.testimony_sound S blake2b) hbefore rfl
    rw [Chainsync.speaks_iff]
    decide
  · intro b p hp
    obtain ⟨first, last⟩ := b
    cases first with
    | none => cases hp
    | some first =>
        cases last with
        | none => cases hp
        | some last =>
            cases hp
            apply inStep Blockfetch.testimony_sound hbefore rfl
            rintro ⟨m, h, -⟩
            cases h
  · intro b role p hp
    cases role with
    | none => cases hp
    | client =>
        cases hp
        apply inStep (Handshake.testimony_sound S) hbefore rfl
        rintro ⟨m, -, h, -⟩
        cases h
    | server =>
        cases hp
        apply inStep (Handshake.testimony_sound S) hbefore rfl
        rintro ⟨m, -, h, -⟩
        cases h

open Chainsync

/-- A chain-sync client has sent its request, and its call is dropped in `recv`. -/
theorem state_in_step_asking :
    ∃ s : Session ChainSync Message, s.position = .outside ∧ s.party.proto.state = .canAwait ∧
      s.Abreast (protocol Cbor.serdeCbor id) Cbor.serdeCbor testimony := by
  have hpayload : ∀ t : Session ChainSync Message, t.position = .writing [] [0x81, 0] →
      Careful testimony t (.payload 2) := by
    intro t ht words data hposition
    rw [ht] at hposition
    cases hposition
    exact ⟨rfl, by decide⟩
  obtain ⟨finish, since, hrun⟩ := run_waiting (Careful testimony)
    (by rintro s a (rfl | rfl | rfl | rfl) <;> trivial) (fun _ _ => trivial) (fun _ _ => trivial)
    hpayload
  have hmisled : ¬ testimony.misled asking.log := fun h => absurd h.1 (by decide)
  have hdrop := hrun.tail ⟨.interrupt, hmisled, .interrupt rfl⟩
  have hstart : Whole [] := ⟨[], rfl⟩
  exact ⟨_, rfl, rfl, ((state_in_step Cbor.serdeCbor id hstart).1 _ hdrop).1 rfl⟩

/-- The call is dropped at the lock. The state says that the request was sent, and nothing
has been written. -/
theorem state_ahead :
    ∃ s, Run (protocol Cbor.serdeCbor id) Cbor.serdeCbor api
        (fun _ _ => True) (start client []) s ∧
      s.position = .outside ∧ s.party.proto.state = .canAwait ∧ s.before ++ s.since = [] ∧
      ¬ s.Abreast (protocol Cbor.serdeCbor id) Cbor.serdeCbor testimony := by
  obtain ⟨finish, hrun⟩ := run_asking (fun _ _ => True) fun _ _ _ => trivial
  refine ⟨_, hrun.tail ⟨_, trivial, .abandonLock rfl⟩, rfl, rfl, rfl, fun habreast => ?_⟩
  obtain ⟨m, -, -, hwritten⟩ := habreast.written (speaks_iff.mpr (.inr rfl))
  exact hwritten.since_ne_nil rfl

end Ouroboros
