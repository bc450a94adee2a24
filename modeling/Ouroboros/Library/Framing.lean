import Ouroboros.Library.StreamDecoder

/-!
Length-prefixed frames over an arbitrary alphabet.

A header has a fixed size and announces the length of the payload behind it.
`Format.decoder` reads whole frames off a buffer, and its codewords are the
frames (`Frame.codeword`), so a stream of frames has one reading only
(`encode_append_eq`). A `Reader` takes a single frame in pieces: it is inside
the header, inside the payload, or it has the whole frame.
-/

namespace Ouroboros.Framing

open Streaming

/-- Headers have `size` letters, and `length` is what a header announces. -/
structure Format (β : Type) where
  size : ℕ
  size_pos : 0 < size
  length : List β → ℕ

/-- A header and the payload it announces. -/
structure Frame {β : Type} (F : Format β) where
  header : List β
  payload : List β
  header_length : header.length = F.size
  payload_length : payload.length = F.length header

variable {β : Type} {F : Format β}

def Frame.bytes (f : Frame F) : List β := f.header ++ f.payload

theorem Frame.length_bytes (f : Frame F) : f.bytes.length = F.size + f.payload.length := by
  rw [bytes, List.length_append, f.header_length]

/-- A frame at the front of a buffer. -/
def Format.decoder (F : Format β) : Decoder β (Frame F) Empty where
  next xs :=
    if xs.isEmpty then .none
    else if h : F.size + F.length (xs.take F.size) ≤ xs.length then
      .item
        { header := xs.take F.size
          payload := (xs.drop F.size).take (F.length (xs.take F.size))
          header_length := by
            rw [List.length_take]
            omega
          payload_length := by
            rw [List.length_take, List.length_drop]
            omega }
        (F.size + F.length (xs.take F.size))
    else .eof
  next_none xs := by
    split_ifs with hxs h <;> simp_all
  next_len {xs f n} h := by
    split_ifs at h with hxs hlen
    cases h
    have hpos := F.size_pos
    omega

theorem Format.next_item {xs : List β} {f : Frame F} {n : ℕ} (h : F.decoder.next xs = .item f n) :
    xs = f.bytes ++ xs.drop n := by
  simp only [Format.decoder] at h
  split_ifs at h with hxs hlen
  cases h
  rw [Frame.bytes, List.append_assoc, ← List.drop_drop, List.take_append_drop,
    List.take_append_drop]

theorem Frame.codeword (f : Frame F) : F.decoder.Codeword f.bytes f where
  item rest := by
    have hlen := f.length_bytes
    have hpayload := f.payload_length
    have htake : (f.bytes ++ rest).take F.size = f.header := by
      rw [bytes, List.append_assoc, ← f.header_length, List.take_left]
    have hdrop : (f.bytes ++ rest).drop F.size = f.payload ++ rest := by
      rw [bytes, List.append_assoc, ← f.header_length, List.drop_left]
    have hempty : (f.bytes ++ rest).isEmpty = false := by
      have hpos := F.size_pos
      rw [List.isEmpty_eq_false_iff, ← List.length_pos_iff, List.length_append]
      omega
    have hle : F.size + F.length f.header ≤ (f.bytes ++ rest).length := by
      rw [List.length_append]
      omega
    simp only [Format.decoder, hempty, Bool.false_eq_true, if_false, htake, hdrop, dif_pos hle,
      hlen, hpayload]
    congr 2
    rw [← hpayload, List.take_left]
  eof p hp hne hnot := by
    have hlt : p.length < f.bytes.length :=
      Nat.lt_of_le_of_ne hp.length_le fun hlen => hnot (hp.eq_of_length hlen)
    rw [f.length_bytes] at hlt
    -- the whole header may be there, but then not all that it announces
    have hshort : ¬ F.size + F.length (p.take F.size) ≤ p.length := by
      intro hle
      have htake : p.take F.size = f.header := by
        apply List.IsPrefix.eq_of_length
        · apply List.prefix_of_prefix_length_le ((List.take_prefix _ _).trans hp)
            (List.prefix_append _ _)
          rw [List.length_take, f.header_length]
          omega
        · rw [List.length_take, f.header_length]
          omega
      rw [htake, ← f.payload_length] at hle
      omega
    simp only [Format.decoder, List.isEmpty_eq_false_iff.mpr hne, dif_neg hshort,
      Bool.false_eq_true, if_false]

/-! ### Streams of frames -/

def encode (fs : List (Frame F)) : List β := fs.flatMap Frame.bytes

@[simp] theorem encode_nil : encode ([] : List (Frame F)) = [] := rfl

@[simp] theorem encode_cons (f : Frame F) (fs : List (Frame F)) :
    encode (f :: fs) = f.bytes ++ encode fs := rfl

@[simp] theorem encode_append (fs gs : List (Frame F)) :
    encode (fs ++ gs) = encode fs ++ encode gs := List.flatMap_append

theorem parse_encode_append (fs : List (Frame F)) (rest : List β) :
    F.decoder.parse (encode fs ++ rest) =
      (fs ++ (F.decoder.parse rest).1, (F.decoder.parse rest).2) := by
  induction fs with
  | nil => rfl
  | cons f fs ih =>
      rw [encode_cons, List.append_assoc, f.codeword.parse_append, ih]
      rfl

/-- Exactly the streams of whole frames are used up. -/
theorem parse_done_iff {xs : List β} {fs : List (Frame F)} :
    F.decoder.parse xs = (fs, .done) ↔ xs = encode fs := by
  constructor
  · intro h
    induction fs generalizing xs with
    | nil =>
        cases hnext : F.decoder.next xs with
        | none => exact (F.decoder.next_none xs).mp hnext
        | item f n => simp [Decoder.parse_item _ hnext] at h
        | eof => simp [Decoder.parse_eof _ hnext] at h
        | fail e => exact e.elim
    | cons f fs ih =>
        cases hnext : F.decoder.next xs with
        | none => simp [(F.decoder.next_none xs).mp hnext] at h
        | item f' n =>
            rw [Decoder.parse_item _ hnext] at h
            simp only [Prod.mk.injEq, List.cons.injEq] at h
            obtain ⟨⟨rfl, hfs⟩, htail⟩ := h
            rw [Format.next_item hnext, ih (Prod.ext hfs htail), encode_cons]
        | eof => simp [Decoder.parse_eof _ hnext] at h
        | fail e => exact e.elim
  · rintro rfl
    have h := parse_encode_append fs []
    rwa [List.append_nil, Decoder.parse_nil, List.append_nil] at h

/-- A stream of frames is read in one way only. -/
theorem encode_append_eq {fs gs : List (Frame F)} {ys : List β} (h : encode fs ++ ys = encode gs) :
    ∃ rest, gs = fs ++ rest ∧ ys = encode rest := by
  have hparse := parse_encode_append fs ys
  rw [h, parse_done_iff.mpr rfl] at hparse
  obtain ⟨hgs, hdone⟩ := Prod.mk.inj hparse
  exact ⟨_, hgs, parse_done_iff.mp (Prod.ext rfl hdone.symm)⟩

/-- The first frame of a buffer is determined by the buffer. -/
theorem Frame.bytes_append_inj {f g : Frame F} {xs ys : List β}
    (h : f.bytes ++ xs = g.bytes ++ ys) : f = g ∧ xs = ys := by
  have hf := f.codeword.item xs
  rw [h, g.codeword.item ys] at hf
  obtain ⟨rfl, -⟩ := Next.item.inj hf
  exact ⟨rfl, List.append_cancel_left h⟩

/-- The letters behind a whole number of frames are a header if there are enough of
them. -/
theorem header_of_prefix {fs gs : List (Frame F)} {header : List β}
    (h : encode fs ++ header <+: encode gs) (hlen : header.length = F.size) :
    ∃ f rest, gs = fs ++ f :: rest ∧ f.header = header := by
  obtain ⟨ys, hys⟩ := h
  rw [List.append_assoc] at hys
  obtain ⟨rest, rfl, hrest⟩ := encode_append_eq hys
  cases rest with
  | nil =>
      have hpos := F.size_pos
      have hnil := List.append_eq_nil_iff.mp hrest
      rw [hnil.1, List.length_nil] at hlen
      omega
  | cons f rest =>
      refine ⟨f, rest, rfl, ?_⟩
      rw [encode_cons, Frame.bytes, List.append_assoc] at hrest
      exact (List.append_inj hrest (hlen.trans f.header_length.symm)).1.symm

/-- `xs` ends between two frames of the stream. -/
def Boundary (fs : List (Frame F)) (xs : List β) : Prop :=
  ∃ done rest, fs = done ++ rest ∧ xs = encode done

/-! ### Reading a frame in pieces -/

inductive Reader (F : Format β)
  /-- Inside the header. -/
  | header (buf : List β) (short : buf.length < F.size)
  /-- Inside the payload. -/
  | payload (header buf : List β) (whole : header.length = F.size)
      (short : buf.length < F.length header)
  | complete (frame : Frame F)

namespace Reader

/-- Before the first letter of a frame. -/
def start : Reader F := .header [] F.size_pos

/-- The letters of the frame that have been read. -/
def part : Reader F → List β
  | .header buf _ => buf
  | .payload head buf _ _ => head ++ buf
  | .complete frame => frame.bytes

/-- How many letters the read in progress asks for. -/
def need : Reader F → ℕ
  | .header buf _ => F.size - buf.length
  | .payload head buf _ _ => F.length head - buf.length
  | .complete _ => 0

/-- A whole header has been read. -/
def announce (head : List β) (whole : head.length = F.size) : Reader F :=
  if h : 0 < F.length head then .payload head [] whole h
  else .complete ⟨head, [], whole, (Nat.eq_zero_of_not_pos h).symm⟩

/-- More letters have been read, no more than the read in progress asks for. -/
def fill (r : Reader F) (xs : List β) (h : xs.length ≤ r.need) : Reader F :=
  match r with
  | .header buf short =>
    if hfull : (buf ++ xs).length = F.size then announce (buf ++ xs) hfull
    else .header (buf ++ xs) (by
      rw [List.length_append] at hfull ⊢
      rw [need] at h
      omega)
  | .payload head buf whole short =>
    if hfull : (buf ++ xs).length = F.length head then
      .complete ⟨head, buf ++ xs, whole, hfull⟩
    else .payload head (buf ++ xs) whole (by
      rw [List.length_append] at hfull ⊢
      rw [need] at h
      omega)
  | .complete frame => .complete frame

@[simp] theorem part_start : (start : Reader F).part = [] := rfl

/-- A reader that asks for nothing has its frame. -/
theorem complete_of_need {r : Reader F} (h : r.need = 0) : ∃ f, r = .complete f := by
  cases r with
  | header buf short =>
      rw [need] at h
      omega
  | payload head buf whole short =>
      rw [need] at h
      omega
  | complete frame => exact ⟨frame, rfl⟩

/-- A reader that has nothing yet is at the start. -/
theorem start_of_part {r : Reader F} (h : r.part = []) : r = .start := by
  have hpos := F.size_pos
  cases r with
  | header buf short =>
      obtain rfl : buf = [] := h
      rfl
  | payload head buf whole short =>
      have hlen := congrArg List.length h
      rw [part, List.length_append, List.length_nil] at hlen
      omega
  | complete frame =>
      have hlen := congrArg List.length h
      rw [part, frame.length_bytes, List.length_nil] at hlen
      omega

theorem part_announce (head : List β) (whole : head.length = F.size) :
    (announce head whole).part = head := by
  rw [announce]
  split_ifs <;> simp [part, Frame.bytes]

@[simp] theorem part_fill (r : Reader F) (xs : List β) (h : xs.length ≤ r.need) :
    (r.fill xs h).part = r.part ++ xs := by
  cases r with
  | header buf short =>
      rw [fill]
      split_ifs
      · exact part_announce _ _
      · rfl
  | payload head buf whole short =>
      rw [fill]
      split_ifs
      · simp [part, Frame.bytes]
      · simp [part]
  | complete frame =>
      have hxs : xs = [] := List.eq_nil_of_length_eq_zero (Nat.le_zero.mp h)
      simp [fill, hxs]

/-- Less than a frame is no whole number of frames, unless it is nothing. -/
theorem part_ne_encode {r : Reader F} (hneed : 0 < r.need) (hpart : r.part ≠ [])
    (fs : List (Frame F)) : r.part ≠ encode fs := by
  intro heq
  cases fs with
  | nil => exact hpart heq
  | cons f fs =>
      rw [encode_cons, Frame.bytes, List.append_assoc] at heq
      have hf := f.header_length
      cases r with
      | header buf short =>
          have hlen := congrArg List.length heq
          rw [part, List.length_append] at hlen
          omega
      | payload head buf whole short =>
          obtain ⟨rfl, hbuf⟩ := List.append_inj heq (whole.trans hf.symm)
          have hlen := congrArg List.length hbuf
          have hpayload := f.payload_length
          rw [List.length_append] at hlen
          omega
      | complete frame => exact absurd hneed (Nat.lt_irrefl 0)

/-- A reader that has begun a frame and not finished it is at no boundary. -/
theorem not_boundary {r : Reader F} (hneed : 0 < r.need) (hpart : r.part ≠ [])
    (fs gs : List (Frame F)) : ¬ Boundary gs (encode fs ++ r.part) := by
  rintro ⟨done, rest, -, heq⟩
  obtain ⟨rest', -, hrest⟩ := encode_append_eq heq
  exact part_ne_encode hneed hpart rest' hrest

end Reader

end Ouroboros.Framing
