import Ouroboros.Protocols.BlockfetchWorld

/-!
Which blocks a stream returns, and how `done` ends.

The queue of blocks and the state of the protocol outlive a stream that is dropped. A
`run` that finds the client in the middle of a batch sends no request, and one that finds
blocks in the queue returns these. In a run of the system where neither happens, a stream
has the blocks of the answer to its own request.

`done` sends `ClientDone` if it finds the client idle. In the middle of a batch it
returns as soon as something has been read.
-/

namespace Ouroboros.Blockfetch

open Relation Streaming

variable {S : SerdeCbor} {w w' : World}

/-! ### The blocks of a run -/

/-- `run` is called when the client is idle and has no blocks. -/
def Drained (c : Client) (a : Action) : Prop :=
  a = .run → c.party.proto.state = .idle ∧ c.party.proto.result = []

/-- Of the calls of `run`, number `k` sends request number `k` and no other, and the
blocks that its stream returns are those of answer number `k`. -/
structure World.Owned (w : World) : Prop where
  asked : ∀ (k : ℕ) (s : Stream), w.streams[k]? = some s →
    s.before = k ∧ ∀ n, s.opened = some n → n = k + 1
  blocks : ∀ (k : ℕ) (s : Stream), w.streams[k]? = some s →
    ∀ (i : ℕ) (block : Bytes), s.returned[i]? = some block →
      ∃ r : Reply, w.replies[k]? = some r ∧ r.blocks[i]? = some block

/-- `run` has been called and is about to send its request. -/
def Client.Asking (c : Client) : Prop :=
  c.place = .run ∧ c.party.proto.state = .idle ∧ c.party.proto.running = true

/-- There is a request for each of `n` runs, or there is about to be. -/
def Client.Counts (c : Client) (n : ℕ) : Prop :=
  c.Asking ∧ requests c.party + 1 = n ∨ ¬ c.Asking ∧ requests c.party = n

/-- Streams before the last one have returned all the blocks of their answers. -/
structure World.Kept (w : World) : Prop where
  asked : ∀ (k : ℕ) (s : Stream), w.streams[k]? = some s →
    s.before = k ∧ ∀ n, s.opened = some n → n = k + 1
  counts : w.client.Counts w.streams.length
  complete : w.streams.dropLast.map Stream.returned =
    (w.replies.take (w.streams.length - 1)).map Reply.blocks

theorem getElem?_modifyLast {α : Type} {f : α → α} {xs : List α} {k : ℕ} {a : α}
    (h : (xs.modifyLast f)[k]? = some a) :
    ∃ b, xs[k]? = some b ∧ (a = b ∨ a = f b ∧ k + 1 = xs.length) := by
  rcases List.eq_nil_or_concat' xs with rfl | ⟨init, last, rfl⟩
  · cases h
  · rw [List.modifyLast_concat] at h
    rcases Nat.lt_or_ge k init.length with hk | hk
    · rw [List.getElem?_append_left hk] at h ⊢
      exact ⟨a, h, .inl rfl⟩
    · rw [List.getElem?_append_right hk, List.getElem?_singleton] at h ⊢
      split_ifs at h ⊢ with hlast
      cases h
      refine ⟨last, rfl, .inr ⟨rfl, ?_⟩⟩
      rw [List.length_append, List.length_singleton]
      omega

section

variable {a : Action} {p : Party BlockFetch Message} {history : List Stream}

/-- Only `run` begins a stream. -/
theorem record_init (ha : a ≠ .run) :
    (record a p history).dropLast = history.dropLast ∧
      (record a p history).length = history.length := by
  rcases List.eq_nil_or_concat' history with rfl | ⟨past, current, rfl⟩
  · cases a with
    | run => exact absurd rfl ha
    | yields block => cases block <;> exact ⟨rfl, rfl⟩
    | _ => exact ⟨rfl, rfl⟩
  · cases a with
    | run => exact absurd rfl ha
    | opened => simp [record, List.modifyLast_concat]
    | yields block => cases block <;> simp [record, List.modifyLast_concat]
    | _ => exact ⟨rfl, rfl⟩

/-- Only `opened` changes what is known of the requests. -/
theorem record_asked (ha : a ≠ .run) {k : ℕ} {s : Stream}
    (h : (record a p history)[k]? = some s) :
    ∃ t, history[k]? = some t ∧ s.before = t.before ∧
      (s.opened = t.opened ∨
        a = .opened ∧ s.opened = some (requests p) ∧ k + 1 = history.length) := by
  cases a with
  | run => exact absurd rfl ha
  | opened =>
      obtain ⟨t, ht, rfl | ⟨rfl, hk⟩⟩ := getElem?_modifyLast h
      · exact ⟨s, ht, rfl, .inl rfl⟩
      · exact ⟨t, ht, rfl, .inr ⟨rfl, rfl, hk⟩⟩
  | yields block =>
      cases block with
      | none => exact ⟨s, h, rfl, .inl rfl⟩
      | some block =>
          obtain ⟨t, ht, rfl | ⟨rfl, hk⟩⟩ := getElem?_modifyLast h
          · exact ⟨s, ht, rfl, .inl rfl⟩
          · exact ⟨t, ht, rfl, .inl rfl⟩
  | _ => exact ⟨s, h, rfl, .inl rfl⟩

variable {c c' : Client} {n : ℕ}

theorem Client.not_asking (h : c.place ≠ .run) : ¬ c.Asking := fun hasking => h hasking.1

theorem Client.Counts.frame (h : c.Counts n) (hplace : c.place ≠ .run) (hplace' : c'.place ≠ .run)
    (hrequests : requests c'.party = requests c.party) : c'.Counts n := by
  refine .inr ⟨Client.not_asking hplace', ?_⟩
  rw [hrequests]
  rcases h with ⟨hasking, -⟩ | ⟨-, hcount⟩
  · exact absurd hasking (Client.not_asking hplace)
  · exact hcount

/-- A turn of `run` sends its request, and no other turn sends one. -/
theorem Moves.counts {p' : Party BlockFetch Message} {place : Place} (hmoves : Moves S p p')
    (hallows : place.Allows p.proto) (hcalling : place.Calling)
    (h : Client.Counts ⟨p, place⟩ n) : Client.Counts ⟨p', place⟩ n := by
  cases hmoves with
  | asks hrunning hdone hidle hproto hrequests =>
      have hplace : place = .run := by
        cases place with
        | run => rfl
        | next => simp [Place.Allows, hidle, hrunning] at hallows
        | done => simp [Place.Allows, hdone] at hallows
        | _ => exact hcalling.elim
      refine .inr ⟨fun hasking => ?_, ?_⟩
      · have hstate := hasking.2.1
        simp [hproto] at hstate
      · rcases h with ⟨-, hcount⟩ | ⟨hnot, -⟩
        · rw [hrequests, hcount]
        · exact absurd ⟨hplace, hidle, hrunning⟩ hnot
  | leaves hrunning hdone hidle hproto hrequests _ _ =>
      have hplace : place ≠ .run := by
        rintro rfl
        simp [Place.Allows, hdone] at hallows
      exact h.frame hplace hplace hrequests
  | reads hrunning hidle _ hlater hrequests =>
      refine .inr ⟨fun hasking => ?_, ?_⟩
      · obtain ⟨-, hstate, hrun⟩ := hasking
        rcases hlater.moved with heq | hs | ⟨-, hstopped⟩
        · rw [heq] at hstate
          exact hidle hstate
        · simp [hs] at hstate
        · simp [hstopped] at hrun
      · rcases h with ⟨hasking, -⟩ | ⟨-, hcount⟩
        · exact absurd hasking.2.1 hidle
        · rw [hrequests, hcount]

theorem Client.Does.counts (hdoes : c.Does S a c') (ha : a ≠ .run)
    (hallows : c.place.Allows c.party.proto) (hallows' : c'.place.Allows c'.party.proto)
    {replies : List Reply} {undelivered : Bytes} {seen : List Bytes}
    {todo : List (Message × Bytes)} {unanswered : ℕ} {coming : List Bytes}
    (hledger : Ledger S replies undelivered seen todo unanswered coming c.party)
    (h : c.Counts n) : c'.Counts n := by
  cases hdoes with
  | run _ => exact absurd rfl ha
  | panic _ _ | unexpected _ _ _ => exact hallows'.elim
  | turn hcalling hturn =>
      exact (hledger.turned (Party.turned_of_next hturn)).1.counts hallows hcalling h
  | opened hplace hstop =>
      have hnot : ¬ c.Asking := by
        rintro ⟨-, hidle, hrunning⟩
        rcases not_running_of_stop hstop with hstopped | hdone
        · simp [hrunning] at hstopped
        · simp [hidle] at hdone
      refine .inr ⟨Client.not_asking (by simp), ?_⟩
      exact (h.resolve_left fun hasking => hnot hasking.1).2
  | next hplace _ _ | peek hplace _ _ | yields hplace _ _ | drop hplace | done hplace
  | closed hplace _ =>
      exact h.frame (by simp [hplace]) (by simp [Client.go]) rfl

end

/-- When `run` is called, the last stream has returned all its blocks, too. -/
theorem World.Kept.complete_run (h : w.Kept) (hsound : w.Sound S)
    (hplace : w.client.place = .outside) (hidle : w.client.party.proto.state = .idle)
    (hresult : w.client.party.proto.result = []) :
    w.streams.map Stream.returned = (w.replies.take w.streams.length).map Reply.blocks := by
  obtain ⟨-, hcounts, hcomplete⟩ := h
  obtain ⟨⟨undelivered, todo, unanswered, coming, -, hledger⟩, -, -⟩ := hsound
  have hcount : requests w.client.party = w.streams.length :=
    (hcounts.resolve_left fun hasking => by simp [hasking.1.1] at hplace).2
  have hdue := hledger.due
  rw [hidle] at hdue
  have hblocks := hledger.blocks
  have hlen := hledger.requests
  generalize hms : todo.map Prod.fst = ms at hdue
  cases hdue with
  | idle =>
  rw [hresult, List.append_nil, List.append_nil] at hblocks
  rw [hcount, Nat.add_zero] at hlen
  rw [hlen, List.take_length]
  rcases List.eq_nil_or_concat' w.streams with hnil | ⟨past, current, hstreams⟩
  · rw [hnil] at hlen ⊢
    rw [List.eq_nil_of_length_eq_zero hlen.symm]
    rfl
  · rcases List.eq_nil_or_concat' w.replies with hnil | ⟨earlier, last, hreplies⟩
    · rw [hnil, hstreams] at hlen
      simp at hlen
    · rw [hstreams, hreplies] at hlen hblocks hcomplete
      simp only [List.length_append, List.length_singleton, Nat.add_right_cancel_iff] at hlen
      simp only [List.dropLast_concat, List.length_append, List.length_singleton,
        Nat.add_sub_cancel, hlen, List.take_left] at hcomplete
      have hflat : past.flatMap Stream.returned = earlier.flatMap Reply.blocks := by
        rw [List.flatMap_def, hcomplete, ← List.flatMap_def]
      rw [List.flatMap_append, List.flatMap_append, hflat, List.flatMap_singleton,
        List.flatMap_singleton] at hblocks
      rw [hstreams, hreplies, List.map_append, List.map_append, hcomplete,
        List.map_singleton, List.map_singleton, List.append_cancel_left hblocks]

/-- A call of `run` begins a stream. -/
theorem World.Kept.begins (h : w.Kept) (hsound : w.Sound S) (hplace : w.client.place = .outside)
    (hidle : w.client.party.proto.state = .idle) (hresult : w.client.party.proto.result = []) :
    World.Kept { w with
      client := w.client.go w.client.party.proto.start .run
      streams := record .run w.client.party w.streams } := by
  have hcount : requests w.client.party = w.streams.length :=
    (h.counts.resolve_left fun hasking => by simp [hasking.1.1] at hplace).2
  refine ⟨fun k s hs => ?_, .inl ⟨⟨rfl, hidle, rfl⟩, ?_⟩, ?_⟩
  · simp only [record] at hs
    rcases Nat.lt_or_ge k w.streams.length with hk | hk
    · rw [List.getElem?_append_left hk] at hs
      exact h.asked k s hs
    · rw [List.getElem?_append_right hk, List.getElem?_singleton] at hs
      split_ifs at hs with hlast
      cases hs
      exact ⟨by simp only; omega, fun n hn => by cases hn⟩
  · simpa [record, Client.go, requests] using hcount
  · simpa [record] using h.complete_run hsound hplace hidle hresult

/-- What else a client does. -/
theorem World.Kept.does (h : w.Kept) (hsound : w.Sound S) {a : Action} {c : Client}
    (hdoes : w.client.Does S a c) (ha : a ≠ .run) (hallows : c.place.Allows c.party.proto) :
    World.Kept { w with client := c, streams := record a w.client.party w.streams } := by
  obtain ⟨⟨undelivered, todo, unanswered, coming, -, hledger⟩, hallowed, -⟩ := hsound
  have hcounts := hdoes.counts ha hallowed hallows hledger h.counts
  have hrecord : (record a w.client.party w.streams).dropLast = w.streams.dropLast ∧
      (record a w.client.party w.streams).length = w.streams.length := record_init ha
  obtain ⟨hinit, hlen⟩ := hrecord
  refine ⟨fun k s hs => ?_, ?_, ?_⟩
  · obtain ⟨t, ht, hbefore, hopened⟩ := record_asked ha hs
    obtain ⟨htbefore, htopened⟩ := h.asked k t ht
    refine ⟨hbefore.trans htbefore, fun n hn => ?_⟩
    rcases hopened with hopened | ⟨rfl, hopened, hk⟩
    · exact htopened n (hopened ▸ hn)
    · cases hdoes with
      | opened hplace hstop =>
          have hcount := (hcounts.resolve_left fun hasking => by cases hasking.1.1).2
          cases hopened.symm.trans hn
          rw [hk]
          exact hcount
  · simp only [hlen]
    exact hcounts
  · simp only [hinit, hlen]
    exact h.complete

/-- **The step lemma.** -/
theorem World.Kept.step (hS : S.Lawful) (h : w.Kept) (hsound : w.Sound S)
    (hstep : World.Step S Drained w w') : w'.Kept := by
  have hsound' := hsound.step hS hstep
  cases hstep with
  | @answer r hr hlt =>
      refine ⟨h.asked, h.counts, ?_⟩
      have hcomplete := h.complete
      have hlen := congrArg List.length hcomplete
      simp only [List.length_map, List.length_take, List.length_dropLast] at hlen
      have hle : w.streams.length - 1 ≤ w.replies.length := by omega
      rw [hcomplete, List.take_append_of_le_length hle]
  | arrive _ _ => exact ⟨h.asked, h.counts, h.complete⟩
  | @client a c hok hdoes =>
      by_cases ha : a = .run
      · subst ha
        obtain ⟨hidle, hresult⟩ := hok rfl
        cases hdoes with
        | run hplace => exact h.begins hsound hplace hidle hresult
      · exact h.does hsound hdoes ha hsound'.allows

theorem Client.Counts.le {c : Client} {n : ℕ} (h : c.Counts n) : requests c.party ≤ n := by
  rcases h with ⟨-, h⟩ | ⟨-, h⟩ <;> omega

/-- The blocks of the last stream are the first ones of the last answer. -/
theorem World.Kept.current (h : w.Kept) (hsound : w.Sound S) {past : List Stream}
    {current : Stream} (hstreams : w.streams = past ++ [current]) {i : ℕ} {block : Bytes}
    (hblock : current.returned[i]? = some block) :
    ∃ r : Reply, w.replies[past.length]? = some r ∧ r.blocks[i]? = some block := by
  obtain ⟨-, hcounts, hcomplete⟩ := h
  obtain ⟨⟨undelivered, todo, unanswered, coming, -, hledger⟩, -, -⟩ := hsound
  have hlen := hledger.requests
  have hle := hcounts.le
  have hblocks := hledger.blocks
  rw [hstreams] at hle hblocks hcomplete
  simp only [List.length_append, List.length_singleton] at hle
  simp only [List.dropLast_concat, List.length_append, List.length_singleton,
    Nat.add_sub_cancel] at hcomplete
  have hflat : past.flatMap Stream.returned =
      (w.replies.take past.length).flatMap Reply.blocks := by
    rw [List.flatMap_def, hcomplete, ← List.flatMap_def]
  rw [← List.take_append_drop past.length w.replies, List.flatMap_append, List.flatMap_append,
    hflat, List.flatMap_singleton, List.append_assoc, List.append_assoc] at hblocks
  have hrest := List.append_cancel_left hblocks
  have hdrop : (w.replies.drop past.length).length ≤ 1 := by
    rw [List.length_drop]
    omega
  rcases hreplies : w.replies.drop past.length with _ | ⟨r, rest⟩
  · rw [hreplies, List.flatMap_nil] at hrest
    rw [(List.append_eq_nil_iff.mp hrest).1] at hblock
    simp at hblock
  · rw [hreplies, List.length_cons] at hdrop
    obtain rfl := List.eq_nil_of_length_eq_zero (l := rest) (by omega)
    rw [hreplies, List.flatMap_singleton] at hrest
    refine ⟨r, ?_, ?_⟩
    · rw [← Nat.add_zero past.length, ← List.getElem?_drop, hreplies]
      rfl
    · have hi := (List.getElem?_eq_some_iff.mp hblock).1
      rw [← hrest, List.getElem?_append_left hi, hblock]

theorem World.Kept.owned (h : w.Kept) (hsound : w.Sound S) : w.Owned where
  asked := h.asked
  blocks k s hs i block hblock := by
    rcases List.eq_nil_or_concat' w.streams with hnil | ⟨past, current, hstreams⟩
    · simp [hnil] at hs
    rcases Nat.lt_or_ge k past.length with hk | hk
    · have hcomplete := h.complete
      simp only [hstreams, List.dropLast_concat, List.length_append, List.length_singleton,
        Nat.add_sub_cancel] at hcomplete
      rw [hstreams, List.getElem?_append_left hk] at hs
      have hmap := congrArg (fun blocks : List (List Bytes) => blocks[k]?) hcomplete
      simp only [List.getElem?_map, hs, List.getElem?_take_of_lt hk, Option.map_some] at hmap
      obtain ⟨r, hr, hreturned⟩ := Option.map_eq_some_iff.mp hmap.symm
      exact ⟨r, hr, hreturned ▸ hblock⟩
    · rw [hstreams, List.getElem?_append_right hk, List.getElem?_singleton] at hs
      split_ifs at hs with hlast
      cases hs
      have hlen : k = past.length := by omega
      rw [hlen]
      exact h.current hsound hstreams hblock

/-- **Blocks belong to their run.** If every call of `run` finds the client idle and
without blocks, then each of them sends one request, and its stream returns blocks of
the answer to that request. -/
theorem blocks_of_run (hS : S.Lawful) {b : Builder} {p : Party BlockFetch Message}
    (hp : b.client = .ok p) (hrun : World.Run S Drained (World.start p) w) : w.Owned := by
  have hkept : w.Sound S ∧ w.Kept := by
    refine Transition.invariant (I := fun w => w.Sound S ∧ w.Kept) ?_ hrun
      ⟨World.sound_start hS hp, ?_⟩
    · rintro u v ⟨hsound, hkept⟩ hstep
      exact ⟨hsound.step hS hstep, hkept.step hS hsound hstep⟩
    · refine ⟨by simp [World.start], .inr ⟨Client.not_asking (by simp [World.start]), ?_⟩, rfl⟩
      obtain ⟨_ | first, _ | last⟩ := b <;> cases hp
      rfl
  exact hkept.2.owned hkept.1

/-! ### A client in the middle of a batch -/

/-- The server still owes the client what it waits for. -/
def Draining (ms : List Message) (s : BlockFetch) (_ : List Bytes) : Prop :=
  ∃ coming, Due s.state 0 ms coming ∧
    (s.state = .streaming ∨ s.state = .idle ∧ s.running = false)

theorem draining_not_role {ms : List Message} {s : BlockFetch} {sent : List Bytes}
    (h : Draining ms s sent) : s.agency ≠ s.role := by
  obtain ⟨-, -, hstreaming | ⟨hidle, hrunning⟩⟩ := h
  · cases hrunning : s.running <;> simp [BlockFetch.agency, BlockFetch.role, hrunning, hstreaming]
  · simp [BlockFetch.agency, BlockFetch.role, hrunning]

theorem draining_follows : protocol.Follows S Draining where
  send h _ hrole := absurd hrole (draining_not_role h)
  recv {m ms s sent} h _ := by
    obtain ⟨coming, hdue, hstate⟩ := h
    obtain ⟨s', fresh, coming', hrecv, ⟨-, hmoved⟩, -, -, hdue'⟩ := hdue.recv
    have hdraining : Draining ms s' sent := by
      refine ⟨coming', hdue', ?_⟩
      rcases hmoved with rfl | hmoved
      · exact hstate
      · exact hmoved
    exact ⟨s', hrecv, hdraining, .inr (draining_not_role hdraining)⟩
  rest {s sent} h := by
    obtain ⟨coming, hdue, hstreaming | ⟨-, hrunning⟩⟩ := h
    · rw [hstreaming] at hdue
      generalize hms : ([] : List Message) = ms at hdue
      cases hdue with
      | streaming coming => simp at hms
    · left
      simp [protocol, BlockFetch.agency, hrunning]

/-- A call that finds the client in the middle of a batch can end without having sent
anything. -/
theorem World.Sound.settles (hS : S.Lawful) (h : w.Sound S) (ok : Client → Action → Prop)
    (hok : ∀ c, ok c .turn) (hcalling : w.client.place.Calling)
    (hstreaming : w.client.party.proto.state = .streaming) :
    ∃ w', World.Run S ok w w' ∧ w'.client.place = w.client.place ∧
      w'.streams = w.streams ∧ Party.turn protocol S w'.client.party = .stop ∧
      w'.client.party.proto.state ≠ .done ∧
      requests w'.client.party = requests w.client.party := by
  obtain ⟨⟨undelivered, todo, unanswered, coming, hwire, hledger⟩, -, -⟩ := id h
  obtain rfl := hledger.due.answered (by simp [hstreaming])
  have harrive : World.Step S ok w (w.arrive undelivered) :=
    .arrive undelivered (by rw [hwire])
  have hdraining : Draining (todo.map Prod.fst) (w.arrive undelivered).client.party.proto
      (w.arrive undelivered).client.party.channel.sent := ⟨coming, hledger.due, .inl hstreaming⟩
  obtain ⟨todo', p', hexecute, -, -, ⟨coming', hdue', hstate⟩, -, -⟩ :=
    draining_follows.execute hledger.owed.awaits hdraining
  obtain ⟨hturns, hstop⟩ := Party.execute_ok_iff.mp hexecute
  have hrun := (World.run_turns (w := w.arrive undelivered) hok hcalling hturns).head harrive
  have hsound := Transition.invariant (fun _ _ h hstep => h.step hS hstep) hrun h
  obtain ⟨⟨_, _, unanswered', _, -, hledger'⟩, -, -⟩ := hsound
  have hstate' : p'.proto.state ≠ .done ∧ p'.proto.state ≠ .busy := by
    rcases hstate with hstate | ⟨hstate, -⟩ <;> simp [hstate]
  obtain rfl := hledger'.due.answered hstate'.2
  exact ⟨_, hrun, rfl, rfl, hstop, hstate'.1, hledger'.requests.trans hledger.requests.symm⟩

/-! ### The end of the exchange -/

/-- The caller calls `done`. -/
def World.leave (w : World) : World :=
  { w with client := w.client.go w.client.party.proto.finish .done }

/-- If `done` returns, the last thing written is `ClientDone`, and the protocol is done. -/
def World.Ends (S : SerdeCbor) (w : World) : Prop :=
  ∀ w', World.Run S (fun _ _ => True) w.leave w' → w'.client.place = .closed →
    w'.client.party.proto.state = .done ∧
      ∃ data, protocol.toBytes S .clientDone = .ok data ∧
        w'.client.party.channel.sent.getLast? = some data

/-- A client that was idle when `done` was called. -/
inductive Parting (S : SerdeCbor) (c : Client) : Prop
  | called : c.place = .done → c.party.proto.running = true → c.party.proto.done = true →
      c.party.proto.state = .idle → Parting S c
  | left {data : Bytes} : c.place = .done ∨ c.place = .closed →
      c.party.proto.state = .done → protocol.toBytes S .clientDone = .ok data →
      c.party.channel.sent.getLast? = some data → Parting S c

theorem Moves.parting {p p' : Party BlockFetch Message} (hmoves : Moves S p p')
    (h : Parting S ⟨p, .done⟩) : Parting S ⟨p', .done⟩ := by
  cases h with
  | called _ hrunning hdone hidle =>
      cases hmoves with
      | asks _ hdone' _ _ _ => cases hdone.symm.trans hdone'
      | leaves _ _ _ hproto _ hdata hsent =>
          exact .left (.inl rfl) (by simp [hproto]) hdata (by simp [hsent])
      | reads _ hidle' _ _ _ => exact absurd hidle hidle'
  | left _ hstate _ _ =>
      cases hmoves with
      | asks _ _ hidle _ _ | leaves _ _ hidle _ _ _ _ => cases hidle.symm.trans hstate
      | reads _ _ hdone _ _ => exact absurd hstate hdone

theorem Parting.does {c c' : Client} {a : Action} (h : Parting S c) (hdoes : c.Does S a c')
    {replies : List Reply} {undelivered : Bytes} {seen : List Bytes}
    {todo : List (Message × Bytes)} {unanswered : ℕ} {coming : List Bytes}
    (hledger : Ledger S replies undelivered seen todo unanswered coming c.party)
    (hallows' : c'.place.Allows c'.party.proto) : Parting S c' := by
  have hplace : c.place = .done ∨ c.place = .closed := by
    cases h with
    | called hplace _ _ _ => exact .inl hplace
    | left hplace _ _ _ => exact hplace
  cases hdoes with
  | turn hcalling hturn =>
      have hdone : c.place = .done := hplace.resolve_right fun hclosed => by
        simp [hclosed, Place.Calling] at hcalling
      obtain ⟨p, place⟩ := c
      subst hdone
      exact (hledger.turned (Party.turned_of_next hturn)).1.parting h
  | closed _ hstop =>
      cases h with
      | called _ hrunning _ hidle =>
          rcases not_running_of_stop hstop with hstopped | hleft
          · simp [hrunning] at hstopped
          · simp [hidle] at hleft
      | left _ hstate hdata hsent => exact .left (.inr rfl) hstate hdata hsent
  | panic _ _ | unexpected _ _ _ => exact hallows'.elim
  | run h | opened h _ | next h _ _ | peek h _ _ | yields h _ _ | drop h | done h =>
      simp [h] at hplace

theorem World.Sound.ends (hS : S.Lawful) (h : w.Sound S) (hplace : w.client.place = .outside)
    (hidle : w.client.party.proto.state = .idle) : w.Ends S := by
  intro w' hrun hclosed
  have hleave : World.Step S (fun _ _ => True) w w.leave := .client trivial (.done hplace)
  have hparting : w'.Sound S ∧ Parting S w'.client := by
    refine Transition.invariant (I := fun w => w.Sound S ∧ Parting S w.client) ?_ hrun
      ⟨h.step hS hleave, .called rfl rfl rfl hidle⟩
    rintro u v ⟨hu, hparting⟩ hstep
    have hv := hu.step hS hstep
    refine ⟨hv, ?_⟩
    cases hstep with
    | client _ hdoes =>
        obtain ⟨⟨_, _, _, _, -, hledger⟩, -, -⟩ := hu
        exact hparting.does hdoes hledger hv.allows
    | answer _ _ => exact hparting
    | arrive _ _ =>
        cases hparting with
        | called hplace hrunning hdone hidle => exact .called hplace hrunning hdone hidle
        | left hplace hstate hdata hsent => exact .left hplace hstate hdata hsent
  cases hparting.2 with
  | called hplace _ _ _ => simp [hclosed] at hplace
  | left _ hstate hdata hsent => exact ⟨hstate, _, hdata, hsent⟩

theorem World.Sound.not_ends (hS : S.Lawful) (h : w.Sound S)
    (hplace : w.client.place = .outside)
    (hstreaming : w.client.party.proto.state = .streaming) : ¬ w.Ends S := by
  intro hends
  have hleave : World.Step S (fun _ _ => True) w w.leave := .client trivial (.done hplace)
  obtain ⟨w', hrun, hplace', -, hstop, hdone, -⟩ :=
    (h.step hS hleave).settles hS (fun _ _ => True) (fun _ => trivial) trivial hstreaming
  have hclosed : World.Step S (fun _ _ => True) w' _ := .client trivial (.closed hplace' hstop)
  exact hdone (hends _ (hrun.tail hclosed) rfl).1

/-- **`done` ends the exchange** if and only if it is called when the client is idle. -/
theorem done_ends_iff (hS : S.Lawful) {b : Builder} {p : Party BlockFetch Message}
    (hp : b.client = .ok p) (hrun : World.Run S (fun _ _ => True) (World.start p) w)
    (hplace : w.client.place = .outside) :
    w.Ends S ↔ w.client.party.proto.state = .idle := by
  have hsound := World.Run.sound hS hp hrun
  refine ⟨fun hends => ?_, hsound.ends hS hplace⟩
  have hallows := hsound.allows
  rw [hplace] at hallows
  exact hallows.2.2.resolve_right fun hstreaming => hsound.not_ends hS hplace hstreaming hends

/-- A run that finds the client in the middle of a batch can return without having sent
a request. -/
theorem World.Sound.unasked (hS : S.Lawful) (h : w.Sound S) (hplace : w.client.place = .outside)
    (hstreaming : w.client.party.proto.state = .streaming) :
    ∃ w', World.Run S (fun _ _ => True) w w' ∧ w'.streams = w.streams ++
      [⟨requests w.client.party, some (requests w.client.party), []⟩] := by
  have hbegin : World.Step S (fun _ _ => True) w _ := .client trivial (.run hplace)
  obtain ⟨w', hrun, hplace', hstreams, hstop, -, hrequests⟩ :=
    (h.step hS hbegin).settles hS (fun _ _ => True) (fun _ => trivial) trivial hstreaming
  have hopened : World.Step S (fun _ _ => True) w' _ := .client trivial (.opened hplace' hstop)
  have hsame : requests w'.client.party = requests w.client.party := hrequests
  refine ⟨_, (hrun.tail hopened).head hbegin, ?_⟩
  simp [record, hstreams, List.modifyLast_concat, hsame]

/-- A stream whose run has not sent a request is not owned. -/
theorem World.not_owned_of_unasked {past : List Stream} {n : ℕ} {returned : List Bytes}
    (hstreams : w.streams = past ++ [⟨n, some n, returned⟩]) : ¬ w.Owned := by
  intro h
  have hlast : w.streams[past.length]? = some ⟨n, some n, returned⟩ := by
    rw [hstreams]
    simp
  obtain ⟨hbefore, hafter⟩ := h.asked _ _ hlast
  have hone := hafter n rfl
  simp only at hbefore
  omega

/-! ### A stream dropped in the middle of a batch -/

/-- A batch of two blocks. -/
def twoBlocks : Reply where
  answer := .batch [[7], [8]]
  wire := [(.startBatch, [0x81, 2]), (.block [7], [0x82, 4, 0x41, 7]),
    (.block [8], [0x82, 4, 0x41, 8]), (.batchDone, [0x81, 5])]

/-- What the builder makes of two points. -/
def twoPoints : Party BlockFetch Message where
  proto := ⟨⟨⟨42, [1]⟩, ⟨44, [2]⟩⟩, .idle, [], false, false⟩
  channel := .open 0x0003
  log := []

theorem client_twoPoints : Builder.client ⟨some ⟨42, [1]⟩, some ⟨44, [2]⟩⟩ = .ok twoPoints := rfl

theorem twoBlocks_conforms : twoBlocks.Conforms Cbor.serdeCbor := by
  refine ⟨rfl, ?_⟩
  simp only [twoBlocks, List.forall_mem_cons, List.not_mem_nil, false_implies, implies_true,
    and_true]
  exact ⟨Message.encoded Cbor.serdeCbor_lawful rfl, Message.encoded Cbor.serdeCbor_lawful rfl,
    Message.encoded Cbor.serdeCbor_lawful rfl, Message.encoded Cbor.serdeCbor_lawful rfl⟩

/-- The stream has returned the first block of `twoBlocks`, and the rest has not arrived. -/
def firstBlock (sent : List Bytes) (log : List (Event BlockFetch Message)) : World where
  client := ⟨⟨{ twoPoints.proto with state := .streaming }, ⟨0x0003, [], [], sent⟩, log⟩, .stream⟩
  replies := [twoBlocks]
  delivered := [0x81, 2, 0x82, 4, 0x41, 7]
  streams := [⟨0, some 1, [[7]]⟩]

/-- The payload that arrives ends behind the first block, and the stream returns it. -/
theorem run_firstBlock : ∃ sent log,
    World.Run Cbor.serdeCbor Drained (World.start twoPoints) (firstBlock sent log) ∧
      requests (firstBlock sent log).client.party = 1 := by
  have hes : ∀ e ∈ twoBlocks.wire.take 2, protocol.Encoded Cbor.serdeCbor e.1 e.2 :=
    fun e he => twoBlocks_conforms.encoded e (List.mem_of_mem_take he)
  have hrun := (ReflTransGen.refl : World.Run Cbor.serdeCbor Drained (World.start twoPoints) _).tail
    (.client (fun _ => ⟨rfl, rfl⟩) (.run rfl))
  have hasks := hrun.tail (.client (by simp [Drained]) (.turn trivial (Party.turn_send_ok
    (by decide) (by decide) rfl rfl)))
  have hanswer := hasks.tail (.answer twoBlocks_conforms (by decide))
  have harrive := hanswer.tail (.arrive [0x81, 2, 0x82, 4, 0x41, 7] (by decide))
  have hreads := harrive.tail (.client (by simp [Drained]) (.turn trivial
    (Party.turn_recv_whole hes (by decide) (by decide) rfl rfl rfl)))
  have hopened := hreads.tail (.client (by simp [Drained]) (.opened rfl
    (Party.turn_stop_iff.mpr rfl)))
  have hpeek := hopened.tail (.client (by simp [Drained]) (.peek rfl (.inl (by decide)) rfl))
  exact ⟨_, _, hpeek, rfl⟩

/-- The stream is dropped behind the first block. -/
theorem dropped_midway : ∃ w, World.Run Cbor.serdeCbor Drained (World.start twoPoints) w ∧
    w.client.place = .outside ∧ w.client.party.proto.state = .streaming ∧
      w.streams = [⟨0, some 1, [[7]]⟩] ∧ requests w.client.party = 1 := by
  obtain ⟨sent, log, hrun, hrequests⟩ := run_firstBlock
  have hdrop := hrun.tail (.client (by simp [Drained]) (.drop rfl))
  exact ⟨_, hdrop, rfl, rfl, rfl, hrequests⟩

theorem blocks_of_run_dropped : ∃ w : World, w.streams = [⟨0, some 1, [[7]]⟩] ∧ w.Owned := by
  obtain ⟨w, hrun, -, -, hstreams, -⟩ := dropped_midway
  exact ⟨w, hstreams, blocks_of_run Cbor.serdeCbor_lawful client_twoPoints hrun⟩

/-- The next run returns without having sent a request. -/
theorem run_unasked : ∃ w, World.Run Cbor.serdeCbor (fun _ _ => True) (World.start twoPoints) w ∧
    w.streams = [⟨0, some 1, [[7]]⟩, ⟨1, some 1, []⟩] ∧ ¬ w.Owned := by
  obtain ⟨w, hrun, hplace, hstreaming, hstreams, hrequests⟩ := dropped_midway
  have hsound := World.Run.sound Cbor.serdeCbor_lawful client_twoPoints hrun
  obtain ⟨w', hrun', hstreams'⟩ := hsound.unasked Cbor.serdeCbor_lawful hplace hstreaming
  rw [hstreams, hrequests] at hstreams'
  exact ⟨w', (World.Run.mono (fun _ _ _ => trivial) hrun).trans hrun', hstreams',
    World.not_owned_of_unasked hstreams'⟩

/-- The rest of the batch arrives. The stream returns the second block, in a call that reads,
and then `None`, and is dropped. -/
theorem done_ends_drained : ∃ w : World, w.streams = [⟨0, some 1, [[7], [8]]⟩] ∧
    w.client.place = .outside ∧ w.Ends Cbor.serdeCbor := by
  obtain ⟨sent, log, hrun, -⟩ := run_firstBlock
  have hes : ∀ e ∈ twoBlocks.wire.drop 2, protocol.Encoded Cbor.serdeCbor e.1 e.2 :=
    fun e he => twoBlocks_conforms.encoded e (List.mem_of_mem_drop he)
  have hrun : World.Run Cbor.serdeCbor (fun _ _ => True) _ (firstBlock sent log) :=
    World.Run.mono (fun _ _ _ => trivial) hrun
  have hnext := hrun.tail (.client trivial (.next rfl rfl rfl))
  have harrive := hnext.tail (.arrive [0x82, 4, 0x41, 8, 0x81, 5] ⟨[], rfl⟩)
  have hreads := harrive.tail (.client trivial (.turn trivial
    (Party.turn_recv_whole hes nofun nofun rfl rfl rfl)))
  have hyields := hreads.tail (.client trivial (.yields rfl (Party.turn_stop_iff.mpr rfl) rfl))
  have hnone := hyields.tail (.client trivial (.peek rfl (.inr rfl) rfl))
  have hdrop := hnone.tail (.client trivial (.drop rfl))
  exact ⟨_, rfl, rfl,
    (done_ends_iff Cbor.serdeCbor_lawful client_twoPoints hdrop rfl).mpr rfl⟩

/-- In the middle of the batch `done` returns without `ClientDone`. -/
theorem done_in_batch : ∃ w, World.Run Cbor.serdeCbor (fun _ _ => True) (World.start twoPoints) w ∧
    w.client.place = .outside ∧ w.streams = [⟨0, some 1, [[7]]⟩] ∧ ¬ w.Ends Cbor.serdeCbor := by
  obtain ⟨w, hrun, hplace, hstreaming, hstreams, -⟩ := dropped_midway
  have hsound := World.Run.sound Cbor.serdeCbor_lawful client_twoPoints hrun
  exact ⟨w, World.Run.mono (fun _ _ _ => trivial) hrun, hplace, hstreams,
    hsound.not_ends Cbor.serdeCbor_lawful hplace hstreaming⟩

end Ouroboros.Blockfetch
