import Ouroboros.Protocols.Values

/-!
What the decoders accept.

A cursor program that returns a value has found each item where it looked for it.
There is one lemma for each read, and `Cursor.bind_ok_iff` puts them together, so
the values behind an accepted point, tip or header are read off its parser.

The integers among them go through a narrowing cast. A `Field` is an integer on
the wire together with the type it is stored in.

The last section is about the values that are not accepted: the readers and the parsers
of points, tips and headers return an error for them, and do not panic.
-/

namespace Ouroboros

namespace Cursor

variable {α β : Type} {vs rest : Values}

theorem eval_ok_iff {c : Cursor α} {a : α} : c.eval vs = .ok a ↔ ∃ rest, c vs = (.ok a, rest) := by
  constructor
  · intro h
    exact ⟨(c vs).2, Prod.ext h rfl⟩
  · rintro ⟨rest, h⟩
    rw [eval, h]

theorem bind_ok_iff {c : Cursor α} {f : α → Cursor β} {b : β} :
    (c >>= f) vs = (.ok b, rest) ↔ ∃ a mid, c vs = (.ok a, mid) ∧ f a mid = (.ok b, rest) := by
  rw [bind_apply]
  rcases c vs with ⟨r, mid⟩
  cases r <;> simp

theorem lift_ok_iff {o : Outcome α} {a : α} :
    lift o vs = (.ok a, rest) ↔ o = .ok a ∧ vs = rest := by
  rw [lift_apply, Prod.mk.injEq]

end Cursor

namespace Values

variable {vs rest : Values}

theorem integer_ok_iff {n : Int} : integer vs = (.ok n, rest) ↔ vs = .integer n :: rest := by
  rcases vs with _ | ⟨v, vs⟩
  · simp [integer, next]
  · cases v <;> simp [integer, next]

theorem bool_ok_iff {b : Bool} : bool vs = (.ok b, rest) ↔ vs = .bool b :: rest := by
  rcases vs with _ | ⟨v, vs⟩
  · simp [bool, next]
  · cases v <;> simp [bool, next]

theorem bytes_ok_iff {b : Bytes} : bytes vs = (.ok b, rest) ↔ vs = .bytes b :: rest := by
  rcases vs with _ | ⟨v, vs⟩
  · simp [bytes, next]
  · cases v <;> simp [bytes, next]

theorem array_ok_iff {values : Values} :
    array vs = (.ok values, rest) ↔ vs = .array values :: rest := by
  rcases vs with _ | ⟨v, vs⟩
  · simp [array, next]
  · cases v <;> simp [array, next]

theorem map_ok_iff {entries : List (Value × Value)} :
    map vs = (.ok entries, rest) ↔ vs = .map entries :: rest := by
  rcases vs with _ | ⟨v, vs⟩
  · simp [map, next]
  · cases v <;> simp [map, next]

theorem end_ok_iff {u : Unit} : end_ vs = (.ok u, rest) ↔ vs = [] ∧ rest = [] := by
  rcases vs with _ | ⟨v, vs⟩ <;> simp [end_, next, eq_comm]

end Values

/-! ### Decoders that do not panic -/

/-- A value or an `Err`. -/
def Outcome.Returns {α : Type} (o : Outcome α) : Prop := ∀ e, o ≠ .panic e

namespace Outcome

variable {α β : Type}

@[simp] theorem returns_ok (a : α) : (ok a).Returns := fun _ h => by cases h

@[simp] theorem returns_err (e : Error) : (err e : Outcome α).Returns := fun _ h => by cases h

@[simp] theorem not_returns_panic (e : Error) : ¬ (panic e : Outcome α).Returns := fun h => h e rfl

theorem returns_ofExcept (r : Except String α) : (ofExcept r).Returns := by
  cases r with
  | ok a => exact returns_ok a
  | error e => exact returns_err _

theorem Returns.bind {o : Outcome α} {f : α → Outcome β} (ho : o.Returns)
    (hf : ∀ a, (f a).Returns) : (o >>= f).Returns := by
  cases o with
  | ok a => exact hf a
  | err e => exact returns_err e
  | panic e => exact absurd rfl (ho e)

theorem returns_mapM {f : α → Outcome β} (as : List α) (hf : ∀ a, (f a).Returns) :
    (as.mapM f).Returns := by
  induction as with
  | nil => exact returns_ok []
  | cons a as ih =>
      rw [List.mapM_cons]
      exact (hf a).bind fun b => ih.bind fun bs => returns_ok (b :: bs)

end Outcome

namespace Cursor

variable {α β : Type}

/-- The program panics on no values. -/
def Total (c : Cursor α) : Prop := ∀ vs, (c.eval vs).Returns

theorem total_pure (a : α) : Total (pure a : Cursor α) := fun _ => Outcome.returns_ok a

theorem total_lift {o : Outcome α} (h : o.Returns) : Total (lift o) := fun _ => h

theorem Total.bind {c : Cursor α} {f : α → Cursor β} (hc : c.Total) (hf : ∀ a, (f a).Total) :
    (c >>= f).Total := by
  intro vs
  have hvs := hc vs
  rw [eval] at hvs ⊢
  rw [bind_apply]
  cases hc' : c vs with
  | mk r mid =>
      rw [hc'] at hvs
      cases r with
      | ok a => exact hf a mid
      | err e => exact Outcome.returns_err e
      | panic e => exact absurd rfl (hvs e)

end Cursor

namespace Values

theorem integer_total : integer.Total := by
  intro vs
  rcases vs with _ | ⟨v, vs⟩
  · exact Outcome.returns_err _
  · cases v <;> simp [Cursor.eval, integer, next]

theorem bool_total : bool.Total := by
  intro vs
  rcases vs with _ | ⟨v, vs⟩
  · exact Outcome.returns_err _
  · cases v <;> simp [Cursor.eval, bool, next]

theorem bytes_total : bytes.Total := by
  intro vs
  rcases vs with _ | ⟨v, vs⟩
  · exact Outcome.returns_err _
  · cases v <;> simp [Cursor.eval, bytes, next]

theorem array_total : array.Total := by
  intro vs
  rcases vs with _ | ⟨v, vs⟩
  · exact Outcome.returns_err _
  · cases v <;> simp [Cursor.eval, array, next]

theorem map_total : map.Total := by
  intro vs
  rcases vs with _ | ⟨v, vs⟩
  · exact Outcome.returns_err _
  · cases v <;> simp [Cursor.eval, map, next]

theorem end_total : end_.Total := by
  intro vs
  rcases vs with _ | ⟨v, vs⟩ <;> simp [Cursor.eval, end_, next]

/-- A message, and then the end of its array. -/
theorem ended {α : Type} {c : Cursor α} (hc : c.Total) : (do
    let message ← c
    end_
    pure message : Cursor α).Total :=
  hc.bind fun _ => end_total.bind fun _ => Cursor.total_pure _

end Values

open Values

/-! ### Points, tips and headers -/

theorem Point.tryInto_returns (vs : Values) : (Point.tryInto vs).Returns :=
  integer_total.bind (fun _ => bytes_total.bind fun _ => end_total.bind fun _ =>
    Cursor.total_pure _) vs

theorem Tip.tryInto_returns (vs : Values) : (Tip.tryInto vs).Returns := by
  have hinfo (info : Values) : Cursor.Total (Cursor.lift (info |> Cursor.eval do
      let slotNumber := UInt64.ofInt (← integer)
      let hash ← bytes
      end_
      pure (slotNumber, hash))) :=
    Cursor.total_lift (integer_total.bind (fun _ => bytes_total.bind fun _ =>
      end_total.bind fun _ => Cursor.total_pure _) info)
  exact array_total.bind (fun info => (hinfo info).bind fun _ => integer_total.bind fun _ =>
    end_total.bind fun _ => Cursor.total_pure _) vs

theorem WrappedBlockHeader.tryInto_returns (vs : Values) :
    (WrappedBlockHeader.tryInto vs).Returns :=
  integer_total.bind (fun _ => bytes_total.bind fun _ => end_total.bind fun _ =>
    Cursor.total_pure _) vs

theorem vrfPair_total : vrfPair.Total :=
  array_total.bind fun values => Cursor.total_lift
    (bytes_total.bind (fun _ => bytes_total.bind fun _ => end_total.bind fun _ =>
      Cursor.total_pure _) values)

theorem Point.tryInto_ok_iff {vs : Values} {point : Point} :
    Point.tryInto vs = .ok point ↔
      ∃ n, vs = [.integer n, .bytes point.hash] ∧ UInt64.ofInt n = point.slot := by
  simp only [Point.tryInto, Cursor.eval_ok_iff, Cursor.bind_ok_iff, Cursor.pure_apply,
    integer_ok_iff, bytes_ok_iff, end_ok_iff, Prod.mk.injEq, Outcome.ok.injEq]
  constructor
  · rintro ⟨_, n, _, rfl, hash, _, rfl, _, _, ⟨rfl, -⟩, rfl, -⟩
    exact ⟨n, rfl, rfl⟩
  · rintro ⟨n, rfl, hslot⟩
    refine ⟨_, n, _, rfl, point.hash, _, rfl, (), _, ⟨rfl, rfl⟩, ?_, rfl⟩
    rw [hslot]

theorem Tip.tryInto_ok_iff {vs : Values} {tip : Tip} :
    Tip.tryInto vs = .ok tip ↔
      ∃ n b, vs = [.array [.integer n, .bytes tip.hash], .integer b] ∧
        UInt64.ofInt n = tip.slotNumber ∧ Int64.ofInt b = tip.blockNumber := by
  simp only [Tip.tryInto, Cursor.eval_ok_iff, Cursor.bind_ok_iff, Cursor.pure_apply,
    Cursor.lift_ok_iff, integer_ok_iff, bytes_ok_iff, array_ok_iff, end_ok_iff, Prod.mk.injEq,
    Outcome.ok.injEq]
  constructor
  · rintro ⟨_, _, _, rfl, _, _, ⟨⟨_, n, _, rfl, hash, _, rfl, _, _, ⟨rfl, -⟩, rfl, -⟩, rfl⟩,
      b, _, rfl, _, _, ⟨rfl, -⟩, rfl, -⟩
    exact ⟨n, b, rfl, rfl, rfl⟩
  · rintro ⟨n, b, rfl, hslot, hblock⟩
    refine ⟨_, _, _, rfl, (tip.slotNumber, tip.hash), _, ⟨⟨_, n, _, rfl, tip.hash, _, rfl, (), _,
      ⟨rfl, rfl⟩, ?_, rfl⟩, rfl⟩, b, _, rfl, (), _, ⟨rfl, rfl⟩, ?_, rfl⟩
    · rw [hslot]
    · rw [hblock]

theorem WrappedBlockHeader.tryInto_ok_iff {vs : Values} {header : WrappedBlockHeader} :
    WrappedBlockHeader.tryInto vs = .ok header ↔
      ∃ era, vs = [.integer era, .bytes header.bytes] := by
  simp only [WrappedBlockHeader.tryInto, Cursor.eval_ok_iff, Cursor.bind_ok_iff,
    Cursor.pure_apply, integer_ok_iff, bytes_ok_iff, end_ok_iff, Prod.mk.injEq, Outcome.ok.injEq]
  constructor
  · rintro ⟨_, era, _, rfl, bytes, _, rfl, _, _, ⟨rfl, -⟩, rfl, -⟩
    exact ⟨era, rfl⟩
  · rintro ⟨era, rfl⟩
    exact ⟨_, era, _, rfl, _, _, rfl, (), _, ⟨rfl, rfl⟩, rfl, rfl⟩

theorem vrfPair_ok_iff {vs rest : Values} {pair : Bytes × Bytes} :
    vrfPair vs = (.ok pair, rest) ↔ vs = .array [.bytes pair.1, .bytes pair.2] :: rest := by
  simp only [vrfPair, Cursor.eval_ok_iff, Cursor.bind_ok_iff, Cursor.pure_apply,
    Cursor.lift_ok_iff, bytes_ok_iff, array_ok_iff, end_ok_iff, Prod.mk.injEq, Outcome.ok.injEq]
  constructor
  · rintro ⟨_, _, rfl, ⟨_, fst, _, rfl, snd, _, rfl, _, _, ⟨rfl, -⟩, rfl, -⟩, rfl⟩
    rfl
  · rintro rfl
    exact ⟨_, _, rfl, ⟨_, pair.1, _, rfl, pair.2, _, rfl, (), _, ⟨rfl, rfl⟩, rfl, rfl⟩, rfl⟩

theorem BlockHeader.tryInto_returns (S : SerdeCbor) (blake2b : Bytes → Bytes)
    (w : WrappedBlockHeader) : (BlockHeader.tryInto S blake2b w).Returns := by
  refine (Outcome.returns_ofExcept _).bind fun vs => Cursor.Total.bind array_total ?_ vs
  intro outer
  refine Cursor.Total.bind (Cursor.total_lift ?_) fun _ => end_total.bind fun _ =>
    Cursor.total_pure _
  refine integer_total.bind (fun _ => ?_) outer
  refine integer_total.bind fun _ => ?_
  refine bytes_total.bind fun _ => ?_
  refine bytes_total.bind fun _ => ?_
  refine bytes_total.bind fun _ => ?_
  refine vrfPair_total.bind fun _ => ?_
  refine vrfPair_total.bind fun _ => ?_
  refine integer_total.bind fun _ => ?_
  refine bytes_total.bind fun _ => ?_
  refine bytes_total.bind fun _ => ?_
  refine integer_total.bind fun _ => ?_
  refine integer_total.bind fun _ => ?_
  refine bytes_total.bind fun _ => ?_
  refine integer_total.bind fun _ => ?_
  refine integer_total.bind fun _ => ?_
  exact end_total.bind fun _ => Cursor.total_pure _

/-- The seven integers of a header are casts of the seven on the wire. -/
theorem BlockHeader.tryInto_ok {S : SerdeCbor} {blake2b : Bytes → Bytes} {w : WrappedBlockHeader}
    {vs : Values} {header : BlockHeader} (hvs : S.fromSlice w.bytes = .ok vs)
    (h : BlockHeader.tryInto S blake2b w = .ok header) :
    ∃ n₁ n₂ n₃ n₄ n₅ n₆ n₇ : Int, vs = [.array [
      .integer n₁, .integer n₂, .bytes header.prevHash, .bytes header.nodeVkey,
      .bytes header.nodeVrfVkey, .array [.bytes header.etaVrf0, .bytes header.etaVrf1],
      .array [.bytes header.leaderVrf0, .bytes header.leaderVrf1], .integer n₃,
      .bytes header.blockBodyHash, .bytes header.poolOpcert, .integer n₄, .integer n₅,
      .bytes header.unknown2, .integer n₆, .integer n₇]] ∧
      header.blockNumber = Int64.ofInt n₁ ∧ header.slotNumber = Int64.ofInt n₂ ∧
      header.blockSize = Int64.ofInt n₃ ∧ header.unknown0 = Int64.ofInt n₄ ∧
      header.unknown1 = Int64.ofInt n₅ ∧ header.protocolMajorVersion = Int64.ofInt n₆ ∧
      header.protocolMinorVersion = Int64.ofInt n₇ := by
  simp only [BlockHeader.tryInto, hvs, Outcome.ofExcept_ok, Outcome.ok_bind] at h
  replace ⟨_, h⟩ := Cursor.eval_ok_iff.mp h
  replace ⟨outer, _, houter, h⟩ := Cursor.bind_ok_iff.mp h
  replace ⟨header', _, hheader, h⟩ := Cursor.bind_ok_iff.mp h
  replace ⟨u, _, hend, h⟩ := Cursor.bind_ok_iff.mp h
  cases h
  obtain ⟨hinner, rfl⟩ := Cursor.lift_ok_iff.mp hheader
  obtain ⟨rfl, -⟩ := end_ok_iff.mp hend
  obtain rfl := array_ok_iff.mp houter
  -- the fifteen items of the header, one after the other
  replace ⟨_, h⟩ := Cursor.eval_ok_iff.mp hinner
  replace ⟨n₁, _, h₁, h⟩ := Cursor.bind_ok_iff.mp h
  replace ⟨n₂, _, h₂, h⟩ := Cursor.bind_ok_iff.mp h
  replace ⟨prevHash, _, h₃, h⟩ := Cursor.bind_ok_iff.mp h
  replace ⟨nodeVkey, _, h₄, h⟩ := Cursor.bind_ok_iff.mp h
  replace ⟨nodeVrfVkey, _, h₅, h⟩ := Cursor.bind_ok_iff.mp h
  replace ⟨etaVrf, _, h₆, h⟩ := Cursor.bind_ok_iff.mp h
  replace ⟨leaderVrf, _, h₇, h⟩ := Cursor.bind_ok_iff.mp h
  replace ⟨n₃, _, h₈, h⟩ := Cursor.bind_ok_iff.mp h
  replace ⟨blockBodyHash, _, h₉, h⟩ := Cursor.bind_ok_iff.mp h
  replace ⟨poolOpcert, _, h₁₀, h⟩ := Cursor.bind_ok_iff.mp h
  replace ⟨n₄, _, h₁₁, h⟩ := Cursor.bind_ok_iff.mp h
  replace ⟨n₅, _, h₁₂, h⟩ := Cursor.bind_ok_iff.mp h
  replace ⟨unknown2, _, h₁₃, h⟩ := Cursor.bind_ok_iff.mp h
  replace ⟨n₆, _, h₁₄, h⟩ := Cursor.bind_ok_iff.mp h
  replace ⟨n₇, _, h₁₅, h⟩ := Cursor.bind_ok_iff.mp h
  replace ⟨u, _, h₁₆, h⟩ := Cursor.bind_ok_iff.mp h
  cases h
  rw [integer_ok_iff] at h₁ h₂ h₈ h₁₁ h₁₂ h₁₄ h₁₅
  rw [bytes_ok_iff] at h₃ h₄ h₅ h₉ h₁₀ h₁₃
  rw [vrfPair_ok_iff] at h₆ h₇
  replace ⟨h₁₆, _⟩ := end_ok_iff.mp h₁₆
  rw [h₁, h₂, h₃, h₄, h₅, h₆, h₇, h₈, h₉, h₁₀, h₁₁, h₁₂, h₁₃, h₁₄, h₁₅, h₁₆]
  exact ⟨n₁, n₂, n₃, n₄, n₅, n₆, n₇, rfl, rfl, rfl, rfl, rfl, rfl, rfl, rfl⟩

/-! ### Integers on the wire -/

/-- The types that integers are stored in. -/
inductive Width
  | u16
  | u32
  | u64
  | i64

namespace Width

/-- The range of the type. -/
def Holds : Width → Int → Prop
  | .u16, n => 0 ≤ n ∧ n < 2 ^ 16
  | .u32, n => 0 ≤ n ∧ n < 2 ^ 32
  | .u64, n => 0 ≤ n ∧ n < 2 ^ 64
  | .i64, n => -2 ^ 63 ≤ n ∧ n < 2 ^ 63

/-- The number that is stored by `as`. -/
def cast : Width → Int → Int
  | .u16, n => (UInt16.ofInt n).toNat
  | .u32, n => (UInt32.ofInt n).toNat
  | .u64, n => (UInt64.ofInt n).toNat
  | .i64, n => (Int64.ofInt n).toInt

/-- The unsigned casts are remainders. -/
theorem cast_unsigned (n : Int) :
    u16.cast n = n % 2 ^ 16 ∧ u32.cast n = n % 2 ^ 32 ∧ u64.cast n = n % 2 ^ 64 := by
  refine ⟨?_, ?_, ?_⟩
  · rw [cast, UInt16.ofInt, UInt16.toNat_ofNat']
    omega
  · rw [cast, UInt32.ofInt, UInt32.toNat_ofNat']
    omega
  · rw [cast, UInt64.ofInt, UInt64.toNat_ofNat']
    omega

/-- A cast keeps the numbers of its range, and no others. -/
theorem cast_eq_iff (w : Width) (n : Int) : w.cast n = n ↔ w.Holds n := by
  obtain ⟨h16, h32, h64⟩ := cast_unsigned n
  cases w with
  | u16 =>
      rw [h16, Holds]
      omega
  | u32 =>
      rw [h32, Holds]
      omega
  | u64 =>
      rw [h64, Holds]
      omega
  | i64 =>
      constructor
      · intro h
        have hlo := (Int64.ofInt n).le_toInt
        have hhi := (Int64.ofInt n).toInt_lt
        rw [cast] at h
        exact ⟨h ▸ hlo, h ▸ hhi⟩
      · intro h
        exact Int64.toInt_ofInt_of_le h.1 h.2

end Width

/-- An integer on the wire, with the type it is stored in. -/
structure Field where
  width : Width
  wire : Int

/-- What the casts make of the fields. -/
def narrowed (fields : List Field) : List Int := fields.map fun f => f.width.cast f.wire

/-- Every integer is in the range of its field. -/
def Fits (fields : List Field) : Prop := ∀ f ∈ fields, f.width.Holds f.wire

theorem narrowed_eq_iff (fields : List Field) :
    narrowed fields = fields.map Field.wire ↔ Fits fields := by
  rw [narrowed, List.map_inj_left]
  exact forall₂_congr fun f _ => f.width.cast_eq_iff f.wire

@[simp] theorem fits_nil : Fits [] := by simp [Fits]

@[simp] theorem fits_cons {f : Field} {fields : List Field} :
    Fits (f :: fields) ↔ f.width.Holds f.wire ∧ Fits fields := List.forall_mem_cons

@[simp] theorem fits_append {fields fields' : List Field} :
    Fits (fields ++ fields') ↔ Fits fields ∧ Fits fields' := List.forall_mem_append

/-! ### The fields of points, tips and headers -/

/-- The slot of a point. -/
def pointFields : Values → List Field
  | .integer slot :: _ => [⟨.u64, slot⟩]
  | _ => []

def Point.stored (point : Point) : List Int := [point.slot.toNat]

/-- The slot of a tip and its block number. -/
def tipFields : Values → List Field
  | .array point :: .integer block :: _ => pointFields point ++ [⟨.i64, block⟩]
  | _ => []

def Tip.stored (tip : Tip) : List Int := [tip.slotNumber.toNat, tip.blockNumber.toInt]

def Value.integer? : Value → Option Int
  | .integer n => some n
  | _ => none

/-- All integers of a header. -/
def headerFields : Values → List Field
  | .array values :: _ => (values.filterMap Value.integer?).map fun n => ⟨.i64, n⟩
  | _ => []

def BlockHeader.stored (header : BlockHeader) : List Int :=
  [header.blockNumber.toInt, header.slotNumber.toInt, header.blockSize.toInt,
    header.unknown0.toInt, header.unknown1.toInt, header.protocolMajorVersion.toInt,
    header.protocolMinorVersion.toInt]

theorem Point.stored_eq {vs : Values} {point : Point} (h : Point.tryInto vs = .ok point) :
    point.stored = narrowed (pointFields vs) := by
  obtain ⟨n, rfl, hslot⟩ := Point.tryInto_ok_iff.mp h
  rw [stored, ← hslot]
  rfl

theorem Tip.stored_eq {vs : Values} {tip : Tip} (h : Tip.tryInto vs = .ok tip) :
    tip.stored = narrowed (tipFields vs) := by
  obtain ⟨n, b, rfl, hslot, hblock⟩ := Tip.tryInto_ok_iff.mp h
  rw [stored, ← hslot, ← hblock]
  rfl

theorem BlockHeader.stored_eq {S : SerdeCbor} {blake2b : Bytes → Bytes} {w : WrappedBlockHeader}
    {vs : Values} {header : BlockHeader} (hvs : S.fromSlice w.bytes = .ok vs)
    (h : BlockHeader.tryInto S blake2b w = .ok header) :
    header.stored = narrowed (headerFields vs) := by
  obtain ⟨n₁, n₂, n₃, n₄, n₅, n₆, n₇, rfl, h₁, h₂, h₃, h₄, h₅, h₆, h₇⟩ :=
    BlockHeader.tryInto_ok hvs h
  rw [stored, h₁, h₂, h₃, h₄, h₅, h₆, h₇]
  rfl

/-- A point with a slot in range is accepted as it was written. -/
theorem Point.eq_pointToVec {vs : Values} {point : Point} (h : Point.tryInto vs = .ok point)
    (hfits : Fits (pointFields vs)) : vs = pointToVec point := by
  obtain ⟨n, rfl, hslot⟩ := Point.tryInto_ok_iff.mp h
  have hcast := (Width.u64.cast_eq_iff n).mpr (hfits _ List.mem_cons_self)
  rw [Width.cast, hslot] at hcast
  rw [pointToVec, hcast]

theorem Tip.eq_tipToVec {vs : Values} {tip : Tip} (h : Tip.tryInto vs = .ok tip)
    (hfits : Fits (tipFields vs)) : vs = tipToVec tip := by
  obtain ⟨n, b, rfl, hslot, hblock⟩ := Tip.tryInto_ok_iff.mp h
  obtain ⟨hn, hb⟩ := fits_append.mp hfits
  have hslot' := (Width.u64.cast_eq_iff n).mpr (hn _ List.mem_cons_self)
  have hblock' := (Width.i64.cast_eq_iff b).mpr (hb _ List.mem_cons_self)
  rw [Width.cast, hslot] at hslot'
  rw [Width.cast, hblock] at hblock'
  rw [tipToVec, hslot', hblock']

end Ouroboros
