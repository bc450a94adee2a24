import Ouroboros.Protocols.Network

/-!
The messages of two parties across the transport between them.

`recv` is handed what its peer's `send` has returned, each message once and in order:
never one that was not sent, and none is passed over. What a message is read as may
differ from the message itself (`Protocol.Reads`), as an encoder may normalise it.
`Heard` says how far one direction has got; the bytes that have not been delivered yet
count as a payload that is still to come.
-/

namespace Ouroboros

open Streaming Relation

variable {σ μ : Type}

/-- The messages that `send` has returned, oldest first. -/
def Party.told (p : Party σ μ) : List μ := p.log.filterMap Event.told

/-- The bytes of the message `m` are read as the message `m'`. -/
def Protocol.Reads (P : Protocol σ μ) (S : SerdeCbor) (m m' : μ) : Prop :=
  ∃ w, P.toBytes S m = .ok w ∧ P.Encoded S m' w

/-- What `receiver` has been handed are the first of the messages that `sender` has said,
as they are read; when it is `complete` they are all of them. -/
def Delivers (P : Protocol σ μ) (S : SerdeCbor) (sender receiver : Party σ μ) (complete : Prop) :
    Prop :=
  ∃ ms, List.Forall₂ (P.Reads S) sender.told ms ∧ receiver.handed <+: ms ∧
    (complete → receiver.handed = ms)

variable {P : Protocol σ μ} {S : SerdeCbor}

theorem Delivers.imp {p q : Party σ μ} {done done' : Prop} (h : Delivers P S p q done)
    (hdone : done' → done) : Delivers P S p q done' := by
  obtain ⟨ms, htold, hhanded, hall⟩ := h
  exact ⟨ms, htold, hhanded, fun h' => hall (hdone h')⟩

theorem Protocol.told_deliveries (P : Protocol σ μ) (ms : List μ) (s : σ) :
    (P.deliveries ms s).filterMap Event.told = [] := by
  induction ms generalizing s with
  | nil => rfl
  | cons m ms ih =>
      rw [Protocol.deliveries, List.filterMap_cons_none rfl]
      split
      · exact ih _
      · rfl
      · rfl

namespace Party

variable {p p' : Party σ μ}

@[simp] theorem told_afterSend (p : Party σ μ) (s : σ) (m : μ) (data : Bytes) :
    (p.afterSend s m data).told = p.told ++ [m] := by
  simp [told, afterSend, Event.told]

@[simp] theorem told_afterRecv (P : Protocol σ μ) (p : Party σ μ) (ms : List μ) (qs : List Bytes)
    (carry : Bytes) : (p.afterRecv P ms qs carry).told = p.told := by
  simp [told, afterRecv, delivered, P.told_deliveries]

/-- One more message is on its way. -/
theorem Fed.snoc {before : List μ} {es todo : List (μ × Bytes)} {future : Bytes}
    {e : μ × Bytes} (h : Fed P S before es [] todo (p.arrive [future]))
    (he : P.Encoded S e.1 e.2) :
    Fed P S before (es ++ [e]) [] (todo ++ [e]) (p.arrive [future ++ e.2]) := by
  obtain ⟨done, hes, hhanded⟩ := h.handed
  obtain ⟨hbegun, hcoded, heq⟩ := h.pending
  refine ⟨⟨done, by rw [hes, List.append_assoc], hhanded⟩, h.carry, hbegun, ?_, ?_⟩
  · intro e' he'
    rcases List.mem_append.mp he' with he' | he'
    · exact hcoded e' he'
    · rw [List.mem_singleton.mp he']
      exact he.codeword
  · simp only [arrive, List.flatten_append, List.flatten_singleton, List.append_nil,
      List.flatMap_append, List.flatMap_singleton] at heq ⊢
    rw [← List.append_assoc, ← List.append_assoc, List.append_assoc _ _ future, heq]

end Party

/-- What one party has said, and how much of it the other one has heard: `es` are the
messages with their bytes, `todo` those still to be handed over, and `future` the bytes
still to be delivered. -/
structure Heard (P : Protocol σ μ) (S : SerdeCbor) (sender receiver : Party σ μ)
    (delivered : Bytes) (es todo : List (μ × Bytes)) (future : Bytes) : Prop where
  told : List.Forall₂ (fun m e => P.toBytes S m = .ok e.2 ∧ P.Encoded S e.1 e.2) sender.told es
  sent : sender.channel.sent = es.map Prod.snd
  stream : delivered ++ future = sender.channel.sent.flatten
  fed : Party.Fed P S [] es [] todo (receiver.arrive [future])

namespace Heard

variable {p p' q q' : Party σ μ} {delivered future chunk : Bytes} {es todo : List (μ × Bytes)}

/-- The sender takes a turn. What it sends can be read. -/
theorem sender_turned (h : Heard P S p q delivered es todo future) (ht : Party.Turned P S p p')
    (hreads : ∀ m ∈ p'.told, ∃ m', P.Reads S m m') :
    ∃ es todo future, Heard P S p' q delivered es todo future := by
  cases ht with
  | @send m s data _ _ _ hdata =>
      obtain ⟨m', w, hw, hencoded⟩ := hreads m (by simp)
      cases hdata.symm.trans hw
      refine ⟨es ++ [(m', data)], todo ++ [(m', data)], future ++ data, ?_, ?_, ?_, ?_⟩
      · rw [Party.told_afterSend]
        exact List.rel_append h.told (.cons ⟨hdata, hencoded⟩ .nil)
      · simp [Party.afterSend, h.sent]
      · simp only [Party.afterSend, List.flatten_append, List.flatten_singleton, ← h.stream,
          List.append_assoc]
      · exact h.fed.snoc (e := (m', data)) hencoded
  | recv _ _ _ _ _ _ =>
      exact ⟨es, todo, future, by rw [Party.told_afterRecv]; exact h.told, h.sent, h.stream, h.fed⟩

/-- The receiver takes a turn. -/
theorem receiver_turn (h : Heard P S p q delivered es todo future)
    (hturn : Party.turn P S q = .next q') :
    ∃ todo', Heard P S p q' delivered es todo' future := by
  obtain ⟨todo', hfed⟩ := h.fed.turned (Party.turned_of_next (Party.turn_arrive hturn [future]))
  exact ⟨todo', h.told, h.sent, h.stream, hfed⟩

/-- A chunk of what is still to come is delivered. -/
theorem deliver (h : Heard P S p q delivered es todo future)
    (hchunk : delivered ++ chunk <+: p.channel.sent.flatten) :
    ∃ future', Heard P S p (q.arrive [chunk]) (delivered ++ chunk) es todo future' := by
  rw [← h.stream, List.prefix_append_right_inj] at hchunk
  obtain ⟨future', rfl⟩ := hchunk
  refine ⟨future', h.told, h.sent, by rw [List.append_assoc, h.stream], h.fed.congr rfl rfl ?_⟩
  simp [Party.arrive]

/-- Everything that is handed over was said. -/
theorem delivers (h : Heard P S p q delivered es todo future) :
    Delivers P S p q (delivered = p.channel.sent.flatten ∧ q.channel.receiver = []) := by
  obtain ⟨done, hes, hhanded⟩ := h.fed.handed
  replace hhanded : q.handed = done.map Prod.fst := hhanded
  refine ⟨es.map Prod.fst, ?_, ?_, fun ⟨hall, hq⟩ => ?_⟩
  · rw [List.forall₂_map_right_iff]
    exact h.told.imp fun m e ⟨hdata, hencoded⟩ => ⟨e.2, hdata, hencoded⟩
  · rw [hhanded, hes, List.map_append]
    exact List.prefix_append _ _
  · -- nothing is left, neither on the way nor in the queue
    have hfuture : future = [] := by
      have hstream := h.stream
      rwa [← hall, List.append_right_eq_self] at hstream
    have hfed : Party.Fed P S [] es [] todo q :=
      h.fed.congr rfl rfl (by simp [Party.arrive, hfuture])
    rw [hhanded, hes, (hfed.exhausted hq).1, List.append_nil]

end Heard

namespace Network

/-- Everything that has been said can be read. -/
def Readable (P : Protocol σ μ) (S : SerdeCbor) (n : Network σ μ) : Prop :=
  ∀ m ∈ n.client.told ++ n.server.told, ∃ m', P.Reads S m m'

structure Hears (P : Protocol σ μ) (S : SerdeCbor) (n : Network σ μ) : Prop where
  server : ∃ es todo future, Heard P S n.client n.server n.toServer es todo future
  client : ∃ es todo future, Heard P S n.server n.client n.toClient es todo future

variable {n n' : Network σ μ}

theorem Hears.step (h : Hears P S n) (hstep : Step P S n n') (hreads : Readable P S n') :
    Hears P S n' := by
  obtain ⟨esS, todoS, futureS, hserver⟩ := h.server
  obtain ⟨esC, todoC, futureC, hclient⟩ := h.client
  cases hstep with
  | client hturn =>
      obtain ⟨todoC', hclient'⟩ := hclient.receiver_turn hturn
      have hserver' := hserver.sender_turned (Party.turned_of_next hturn) fun m hm =>
        hreads m (List.mem_append_left _ hm)
      exact ⟨hserver', esC, todoC', futureC, hclient'⟩
  | server hturn =>
      obtain ⟨todoS', hserver'⟩ := hserver.receiver_turn hturn
      have hclient' := hclient.sender_turned (Party.turned_of_next hturn) fun m hm =>
        hreads m (List.mem_append_right _ hm)
      exact ⟨⟨esS, todoS', futureS, hserver'⟩, hclient'⟩
  | toServer _ hsent =>
      obtain ⟨futureS', hserver'⟩ := hserver.deliver hsent
      exact ⟨⟨esS, todoS, futureS', hserver'⟩, esC, todoC, futureC, hclient.told, hclient.sent,
        hclient.stream, hclient.fed⟩
  | toClient _ hsent =>
      obtain ⟨futureC', hclient'⟩ := hclient.deliver hsent
      exact ⟨⟨esS, todoS, futureS, hserver.told, hserver.sent, hserver.stream, hserver.fed⟩,
        esC, todoC, futureC', hclient'⟩

theorem heard_open {p q : Party σ μ} (hp : p.told = []) (hpsent : p.channel.sent = [])
    (hq : q.handed = []) (hbytes : q.channel.bytes = []) (hreceiver : q.channel.receiver = [])
    {m : μ} {w : Bytes} (hm : P.Encoded S m w) : Heard P S p q [] [] [] [] where
  told := by
    rw [hp]
    exact .nil
  sent := hpsent
  stream := by simp [hpsent]
  fed := by
    have hbegun := hm.codeword.partial_nil
    refine ⟨⟨[], rfl, hq⟩, by simpa [Party.arrive, hbytes] using hbegun, hbegun, ?_, ?_⟩
    · simp [Decoder.Coded]
    · simp [Party.arrive, hbytes, hreceiver]

/-- A run from two parties whose channels have just been opened. -/
theorem Hears.run {pc ps : Party σ μ} {idx idx' : UInt16} (hpc : pc.channel = .open idx)
    (hps : ps.channel = .open idx') (hlogc : pc.log = []) (hlogs : ps.log = []) {m : μ} {w : Bytes}
    (hm : P.Encoded S m w)
    (hreads : ∀ n, ReflTransGen (Step P S) ⟨pc, ps, [], []⟩ n → Readable P S n)
    (hrun : ReflTransGen (Step P S) ⟨pc, ps, [], []⟩ n) : Hears P S n := by
  have hopen : ∀ {p q : Party σ μ} {i j : UInt16}, p.channel = .open i → q.channel = .open j →
      p.log = [] → q.log = [] → Heard P S p q [] [] [] [] := by
    intro p q i j hp hq hlogp hlogq
    refine heard_open ?_ ?_ ?_ ?_ ?_ hm
    · simp [Party.told, hlogp]
    · simp [hp, Channel.open]
    · simp [Party.handed, hlogq]
    · simp [hq, Channel.open]
    · simp [hq, Channel.open]
  induction hrun with
  | refl => exact ⟨⟨_, _, _, hopen hpc hps hlogc hlogs⟩, _, _, _, hopen hps hpc hlogs hlogc⟩
  | tail hrun hstep ih => exact ih.step hstep (hreads _ (hrun.tail hstep))

/-- When nothing can move any more everything has been delivered. -/
theorem Hears.delivered (h : Hears P S n) (hstuck : ∀ n', ¬ Step P S n n') :
    n.toServer = n.client.channel.sent.flatten ∧ n.toClient = n.server.channel.sent.flatten := by
  obtain ⟨esS, todoS, futureS, hserver⟩ := h.server
  obtain ⟨esC, todoC, futureC, hclient⟩ := h.client
  have hS : futureS = [] := by
    by_contra hne
    exact hstuck _ (.toServer hne (by rw [hserver.stream]))
  have hC : futureC = [] := by
    by_contra hne
    exact hstuck _ (.toClient hne (by rw [hclient.stream]))
  rw [← hserver.stream, ← hclient.stream, hS, hC, List.append_nil, List.append_nil]
  exact ⟨rfl, rfl⟩

/-- **Delivery.** -/
theorem Hears.delivers (h : Hears P S n) :
    Delivers P S n.client n.server
        ((∀ n', ¬ Step P S n n') ∧ Party.turn P S n.server = .wait) ∧
      Delivers P S n.server n.client
        ((∀ n', ¬ Step P S n n') ∧ Party.turn P S n.client = .wait) := by
  obtain ⟨esS, todoS, futureS, hserver⟩ := h.server
  obtain ⟨esC, todoC, futureC, hclient⟩ := h.client
  refine ⟨hserver.delivers.imp fun ⟨hstuck, hwait⟩ => ⟨(h.delivered hstuck).1, ?_⟩,
    hclient.delivers.imp fun ⟨hstuck, hwait⟩ => ⟨(h.delivered hstuck).2, ?_⟩⟩
  · exact (Party.turn_wait_iff.mp hwait).2.2
  · exact (Party.turn_wait_iff.mp hwait).2.2

end Network

end Ouroboros
