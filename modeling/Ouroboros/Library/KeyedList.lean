import Mathlib.Data.List.Sort
import Mathlib.Data.List.Induction
import Mathlib.Order.Compare

/-!
Maps as lists in the order of their keys.

`ofList` builds a map from a list whose items come in any order and may repeat a
key. Its keys ascend, and of the items with one key it holds the last
(`mem_ofList`). A list that is a map already is left as it is.
-/

namespace Ouroboros.KeyedList

variable {α κ : Type} [LinearOrder κ] (key : α → κ)

/-- The keys strictly ascend. -/
def Ascending (as : List α) : Prop := as.Pairwise fun a b => key a < key b

/-- The item takes its place, and the place of an item with the same key. -/
def insert (a : α) : List α → List α
  | [] => [a]
  | b :: bs =>
    match compare (key a) (key b) with
    | .lt => a :: b :: bs
    | .eq => a :: bs
    | .gt => b :: insert a bs

def ofList (as : List α) : List α := as.foldl (fun map a => insert key a map) []

/-- The last item of the list with its key. -/
def Last (as : List α) (a : α) : Prop :=
  ∃ before after, as = before ++ a :: after ∧ ∀ b ∈ after, key b ≠ key a

variable {key} {a b : α} {as bs : List α}

theorem mem_insert (h : Ascending key bs) :
    b ∈ insert key a bs ↔ b = a ∨ b ∈ bs ∧ key b ≠ key a := by
  induction bs with
  | nil => simp [insert]
  | cons c bs ih =>
      obtain ⟨hc, hbs⟩ := List.pairwise_cons.mp h
      rw [insert]
      split
      case h_1 hlt =>
        -- every key of the list is above the new one
        rw [compare_lt_iff_lt] at hlt
        have hne : ∀ d ∈ c :: bs, key d ≠ key a := by
          intro d hd
          rcases List.mem_cons.mp hd with rfl | hd
          · exact hlt.ne'
          · exact (hlt.trans (hc d hd)).ne'
        rw [List.mem_cons]
        exact or_congr_right ⟨fun hb => ⟨hb, hne b hb⟩, fun hb => hb.1⟩
      case h_2 heq =>
        rw [compare_eq_iff_eq] at heq
        have hne : ∀ d ∈ bs, key d ≠ key a := fun d hd => heq ▸ (hc d hd).ne'
        rw [List.mem_cons, List.mem_cons]
        apply or_congr_right
        constructor
        · exact fun hb => ⟨.inr hb, hne b hb⟩
        · rintro ⟨rfl | hb, hkey⟩
          · exact absurd heq.symm hkey
          · exact hb
      case h_3 hgt =>
        rw [compare_gt_iff_gt] at hgt
        rw [List.mem_cons, List.mem_cons, ih hbs]
        constructor
        · rintro (rfl | rfl | ⟨hb, hkey⟩)
          · exact .inr ⟨.inl rfl, hgt.ne⟩
          · exact .inl rfl
          · exact .inr ⟨.inr hb, hkey⟩
        · rintro (rfl | ⟨rfl | hb, hkey⟩)
          · exact .inr (.inl rfl)
          · exact .inl rfl
          · exact .inr (.inr ⟨hb, hkey⟩)

theorem Ascending.insert (h : Ascending key bs) (a : α) : Ascending key (insert key a bs) := by
  induction bs with
  | nil => exact List.pairwise_singleton _ a
  | cons c bs ih =>
      obtain ⟨hc, hbs⟩ := List.pairwise_cons.mp h
      rw [KeyedList.insert]
      split
      case h_1 hlt =>
        rw [compare_lt_iff_lt] at hlt
        refine List.pairwise_cons.mpr ⟨fun d hd => ?_, h⟩
        rcases List.mem_cons.mp hd with rfl | hd
        · exact hlt
        · exact hlt.trans (hc d hd)
      case h_2 heq =>
        rw [compare_eq_iff_eq] at heq
        exact List.pairwise_cons.mpr ⟨fun d hd => heq ▸ hc d hd, hbs⟩
      case h_3 hgt =>
        rw [compare_gt_iff_gt] at hgt
        refine List.pairwise_cons.mpr ⟨fun d hd => ?_, ih hbs⟩
        rcases (mem_insert hbs).mp hd with rfl | ⟨hd, -⟩
        · exact hgt
        · exact hc d hd

theorem ofList_append_singleton (as : List α) (a : α) :
    ofList key (as ++ [a]) = insert key a (ofList key as) := by
  rw [ofList, List.foldl_append]
  rfl

theorem ascending_ofList (as : List α) : Ascending key (ofList key as) := by
  induction as using List.reverseRecOn with
  | nil => exact List.Pairwise.nil
  | append_singleton as a ih =>
      rw [ofList_append_singleton]
      exact ih.insert a

omit [LinearOrder κ] in
theorem last_append_singleton : Last key (as ++ [b]) a ↔ a = b ∨ Last key as a ∧ key a ≠ key b := by
  constructor
  · rintro ⟨before, after, heq, hafter⟩
    rcases List.eq_nil_or_concat after with rfl | ⟨after, c, rfl⟩
    · exact .inl (by simpa using (List.append_inj_right' heq rfl).symm)
    · rw [List.concat_eq_append, ← List.cons_append, ← List.append_assoc] at heq
      obtain ⟨rfl, hcb⟩ := List.append_inj' heq rfl
      obtain rfl : b = c := by simpa using hcb
      rw [List.concat_eq_append] at hafter
      refine .inr ⟨⟨before, after, rfl, fun d hd => ?_⟩, ?_⟩
      · exact hafter d (List.mem_append_left _ hd)
      · exact (hafter b (by simp)).symm
  · rintro (rfl | ⟨⟨before, after, rfl, hafter⟩, hkey⟩)
    · exact ⟨as, [], rfl, by simp⟩
    · refine ⟨before, after ++ [b], by simp, fun d hd => ?_⟩
      rcases List.mem_append.mp hd with hd | hd
      · exact hafter d hd
      · rw [List.mem_singleton.mp hd]
        exact hkey.symm

/-- Of the items with one key, the map holds the last. -/
theorem mem_ofList : a ∈ ofList key as ↔ Last key as a := by
  induction as using List.reverseRecOn with
  | nil => simp [ofList, Last]
  | append_singleton as b ih =>
      rw [ofList_append_singleton, mem_insert (ascending_ofList as), ih, last_append_singleton]

/-- Every key of the list is a key of the map. -/
theorem exists_last (h : a ∈ as) : ∃ b, Last key as b ∧ key b = key a := by
  induction as using List.reverseRecOn with
  | nil => cases h
  | append_singleton as c ih =>
      by_cases hkey : key a = key c
      · exact ⟨c, last_append_singleton.mpr (.inl rfl), hkey.symm⟩
      · have has : a ∈ as := by
          rcases List.mem_append.mp h with has | hac
          · exact has
          · exact absurd (congrArg key (List.mem_singleton.mp hac)) hkey
        obtain ⟨b, hb, hba⟩ := ih has
        exact ⟨b, last_append_singleton.mpr (.inr ⟨hb, hba ▸ hkey⟩), hba⟩

omit [LinearOrder κ] in
theorem Last.mem (h : Last key as a) : a ∈ as := by
  obtain ⟨before, after, rfl, -⟩ := h
  simp

theorem Ascending.last_iff (h : Ascending key as) : Last key as a ↔ a ∈ as := by
  refine ⟨Last.mem, fun ha => ?_⟩
  obtain ⟨before, after, rfl⟩ := List.append_of_mem ha
  refine ⟨before, after, rfl, fun b hb => ?_⟩
  exact (List.rel_of_pairwise_cons (List.pairwise_append.mp h).2.1 hb).ne'

/-- A map is left as it is. -/
theorem Ascending.ofList_eq (h : Ascending key as) : ofList key as = as := by
  refine List.Pairwise.eq_of_mem_iff (ascending_ofList as) h fun a => ?_
  rw [mem_ofList, h.last_iff]

end Ouroboros.KeyedList
