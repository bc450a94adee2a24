import Ouroboros.Library.Transition
import Ouroboros.Protocols.Conversation

/-!
Two parties and the transport between them.

The transport is reliable and keeps the order: what it has delivered to a party
is always an initial part of what the other one has sent. It cuts the bytes
where it likes. A party takes its turn when it can; its turns, the turns of its
peer and the deliveries interleave in any order.
-/

namespace Ouroboros

open Streaming

variable {σ μ : Type}

/-- Both parties, and the bytes delivered to each of them so far. -/
structure Network (σ μ : Type) where
  client : Party σ μ
  server : Party σ μ
  toServer : Bytes
  toClient : Bytes

inductive Network.Step (P : Protocol σ μ) (S : SerdeCbor) : Network σ μ → Network σ μ → Prop
  | client {n : Network σ μ} {client : Party σ μ} : Party.turn P S n.client = .next client →
      Step P S n { n with client }
  | server {n : Network σ μ} {server : Party σ μ} : Party.turn P S n.server = .next server →
      Step P S n { n with server }
  | toServer {n : Network σ μ} {chunk : Bytes} : chunk ≠ [] →
      n.toServer ++ chunk <+: n.client.channel.sent.flatten →
      Step P S n { n with server := n.server.arrive [chunk], toServer := n.toServer ++ chunk }
  | toClient {n : Network σ μ} {chunk : Bytes} : chunk ≠ [] →
      n.toClient ++ chunk <+: n.server.channel.sent.flatten →
      Step P S n { n with client := n.client.arrive [chunk], toClient := n.toClient ++ chunk }

/-! ### Receiving one message -/

namespace Party

/-- The party is waiting for the bytes `w`; `delivered` has arrived so far, but
it has not seen all of `w` yet. -/
structure Receiving (w : Bytes) (p : Party σ μ) (delivered : Bytes) : Prop where
  eq : p.channel.bytes ++ p.channel.receiver.flatten = delivered
  initial : delivered <+: w
  carry : p.channel.bytes ≠ w
  chunks : ∀ q ∈ p.channel.receiver, q ≠ []

variable {P : Protocol σ μ} {S : SerdeCbor} {w delivered chunk : Bytes} {p : Party σ μ}

theorem Receiving.arrive (h : Receiving w p delivered) (hchunk : chunk ≠ [])
    (hinitial : delivered ++ chunk <+: w) :
    Receiving w (p.arrive [chunk]) (delivered ++ chunk) where
  eq := by
    simp only [Party.arrive, List.flatten_append, ← List.append_assoc, h.eq]
    simp
  initial := hinitial
  carry := h.carry
  chunks := by
    intro q hq
    rcases List.mem_append.mp hq with hq | hq
    · exact h.chunks q hq
    · rw [List.mem_singleton.mp hq]
      exact hchunk

/-- The next chunk completes the message, or it is added to the carry. -/
theorem Receiving.feed {m : μ} (h : Receiving w p delivered) (hw : (P.decoder S).Codeword w m)
    {q : Bytes} {qs : List Bytes} (hq : p.channel.receiver = q :: qs) :
    (qs = [] ∧ delivered = w ∧ (P.decoder S).feed p.channel.bytes q = ([m], .done)) ∨
    ((P.decoder S).feed p.channel.bytes q = ([], .more (p.channel.bytes ++ q)) ∧
      Receiving w (p.afterRecv P [] qs (p.channel.bytes ++ q)) delivered) := by
  have heq : p.channel.bytes ++ q ++ qs.flatten = delivered := by
    have heq := h.eq
    rwa [hq, List.flatten_cons, ← List.append_assoc] at heq
  have hinitial : p.channel.bytes ++ q <+: w := by
    refine List.IsPrefix.trans ?_ h.initial
    rw [← heq]
    exact List.prefix_append _ _
  have hchunks : ∀ r ∈ q :: qs, r ≠ [] := hq ▸ h.chunks
  by_cases hfull : p.channel.bytes ++ q = w
  · left
    have hnil : qs.flatten = [] := by
      have hle := h.initial.length_le
      rw [← heq, ← hfull, List.length_append] at hle
      exact List.eq_nil_of_length_eq_zero (by omega)
    have hqs : qs = [] := by
      apply List.eq_nil_iff_forall_not_mem.mpr
      intro r hr
      exact hchunks r (List.mem_cons_of_mem q hr) (List.flatten_eq_nil_iff.mp hnil r hr)
    refine ⟨hqs, by rw [← heq, hnil, List.append_nil, hfull], ?_⟩
    have hparse := hw.parse_append []
    rw [List.append_nil, Decoder.parse_nil] at hparse
    rw [Decoder.feed, hfull, hparse]
  · right
    have hne : p.channel.bytes ++ q ≠ [] := by
      simp [hchunks q List.mem_cons_self]
    refine ⟨Decoder.parse_eof _ (hw.eof _ hinitial hne hfull), heq, h.initial, hfull, ?_⟩
    intro r hr
    exact hchunks r (List.mem_cons_of_mem q hr)

/-- Everything has been delivered, so there is a chunk to read. -/
theorem Receiving.ready (h : Receiving w p w) : ∃ q qs, p.channel.receiver = q :: qs := by
  cases hq : p.channel.receiver with
  | nil =>
      have heq := h.eq
      rw [hq, List.flatten_nil, List.append_nil] at heq
      exact absurd heq h.carry
  | cons q qs => exact ⟨q, qs, rfl⟩

end Party

end Ouroboros
