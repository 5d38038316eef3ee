import Ensembles.PartTable
import Mathlib.Data.List.Basic

/-!
# What texts share at their start

How the length of a common start (`sharedLength`) and the place of a name relative to those
that start with a text (`startOrder`) go with the order of texts:

* `length_le_sharedLength_iff`: two texts have those starts in common that are no longer than
  what they share;
* `sharedLength_of_lt_of_lt`: of three texts in order, the outer two share what the middle one
  shares with both;
* `startOrder_eq_iff`, `startOrder_lt_of_lt`, `startOrder_gt_of_lt`: the names that start with a
  text stand together;
* `lt_iff_bytes_lt`: texts are in order as their UTF-8 bytes are.
-/

namespace Ensembles

variable {as bs cs text : List Char}

/-! ## Common starts -/

theorem sharedLength_comm (as bs : List Char) : sharedLength as bs = sharedLength bs as := by
  fun_induction sharedLength as bs with
  | case1 b as bs ih => rw [sharedLength, if_pos rfl, ih]
  | case2 a as b bs h => rw [sharedLength, if_neg (Ne.symm h)]
  | case3 as bs h =>
    cases as with
    | nil => cases bs <;> rfl
    | cons a as =>
      cases bs with
      | nil => rfl
      | cons b bs => exact absurd rfl (h a as b bs rfl)

/-- A start of one text is one of another if it lies within what they share. -/
theorem length_le_sharedLength_iff (h : text <+: as) :
    text.length ≤ sharedLength as bs ↔ text <+: bs := by
  induction text generalizing as bs with
  | nil => simp
  | cons c text ih =>
    obtain ⟨rest, rfl⟩ := h
    cases bs with
    | nil => simp [sharedLength]
    | cons b bs =>
      rw [List.cons_append, sharedLength, List.cons_prefix_cons, List.length_cons]
      split
      · rename_i hc
        rw [Nat.add_le_add_iff_right, ih (List.prefix_append text rest)]
        exact (and_iff_right hc).symm
      · rename_i hc
        exact iff_of_false (Nat.not_succ_le_zero _) fun h => hc h.1

/-- Of three texts in order, the outer two share what the middle one shares with both. -/
theorem sharedLength_of_lt_of_lt (hab : as < bs) (hbc : bs < cs) :
    sharedLength as cs = min (sharedLength as bs) (sharedLength bs cs) := by
  induction hab generalizing cs with
  | nil => simp [sharedLength]
  | @rel a as b bs hlt =>
    cases cs with
    | nil => exact absurd hbc (List.not_lt_nil _)
    | cons c cs =>
      have hac : a ≠ c := by
        rcases List.cons_lt_cons_iff.1 hbc with h | ⟨rfl, -⟩
        · exact Char.ne_of_lt (Char.lt_trans hlt h)
        · exact Char.ne_of_lt hlt
      rw [sharedLength, if_neg hac, sharedLength, if_neg (Char.ne_of_lt hlt), Nat.zero_min]
  | @cons a as bs _ ih =>
    cases cs with
    | nil => exact absurd hbc (List.not_lt_nil _)
    | cons c cs =>
      rcases List.cons_lt_cons_iff.1 hbc with h | ⟨rfl, h⟩
      · simp [sharedLength, Char.ne_of_lt h]
      · simp only [sharedLength, if_pos, ih h]
        omega

/-! ## The names that start with a text -/

theorem startOrder_eq_iff : startOrder as text = .eq ↔ text <+: as := by
  fun_induction startOrder as text with
  | case1 => simp
  | case2 => simp
  | case3 a as b bs h => simp [(Char.ne_of_lt h).symm]
  | case4 a as b bs _ h => simp [Char.ne_of_lt h]
  | case5 a as b bs h₁ h₂ ih =>
    rw [ih, List.cons_prefix_cons]
    exact (and_iff_right (Char.le_antisymm (Char.not_lt.1 h₁) (Char.not_lt.1 h₂))).symm

/-- A name that lies before those that start with a text lies before the text. -/
theorem startOrder_eq_lt_iff : startOrder as text = .lt ↔ as < text := by
  fun_induction startOrder as text with
  | case1 as => exact iff_of_false nofun (List.not_lt_nil as)
  | case2 b bs => exact iff_of_true rfl (List.nil_lt_cons b bs)
  | case3 a as b bs h => exact iff_of_true rfl (List.cons_lt_cons_iff.2 (.inl h))
  | case4 a as b bs h₁ h₂ =>
    refine iff_of_false nofun fun h => ?_
    rcases List.cons_lt_cons_iff.1 h with h | ⟨rfl, -⟩
    · exact h₁ h
    · exact h₁ h₂
  | case5 a as b bs h₁ h₂ ih =>
    have hab := Char.le_antisymm (Char.not_lt.1 h₂) (Char.not_lt.1 h₁)
    rw [ih, List.cons_lt_cons_iff, or_iff_right h₁, and_iff_right hab]

/-- What lies between two texts shares with them what they share. -/
theorem prefix_of_lt_of_lt (hab : as < bs) (hbc : bs < cs) (ha : text <+: as) (hc : text <+: cs) :
    text <+: bs := by
  have hle := (length_le_sharedLength_iff ha).2 hc
  rw [sharedLength_of_lt_of_lt hab hbc] at hle
  exact (length_le_sharedLength_iff ha).1 (Nat.le_trans hle (Nat.min_le_left ..))

theorem startOrder_lt_of_lt (h : as < bs) (hb : startOrder bs text = .lt) :
    startOrder as text = .lt :=
  startOrder_eq_lt_iff.2 (List.lt_trans h (startOrder_eq_lt_iff.1 hb))

theorem startOrder_gt_of_lt (h : as < bs) (ha : startOrder as text = .gt) :
    startOrder bs text = .gt := by
  have hta : text < as := by
    rcases Std.lt_trichotomy text as with h | rfl | h
    · exact h
    · rw [startOrder_eq_iff.2 (List.prefix_refl _)] at ha
      cases ha
    · rw [startOrder_eq_lt_iff.2 h] at ha
      cases ha
  cases hb : startOrder bs text with
  | gt => rfl
  | lt => exact absurd (List.lt_trans h (startOrder_eq_lt_iff.1 hb)) (List.lt_asymm hta)
  | eq =>
    have := prefix_of_lt_of_lt hta h (List.prefix_refl _) (startOrder_eq_iff.1 hb)
    rw [startOrder_eq_iff.2 this] at ha
    cases ha

/-! ## Bytes -/

section Bytes

open String

theorem byte_cons_lt_iff {x y : Nat} (hx : x < 256) (hy : y < 256) {xs ys : List UInt8} :
    UInt8.ofNat x :: xs < UInt8.ofNat y :: ys ↔ x < y ∨ x = y ∧ xs < ys := by
  rw [List.cons_lt_cons_iff, UInt8.lt_iff_toNat_lt, ← UInt8.toNat_inj, UInt8.toNat_ofNat',
    UInt8.toNat_ofNat', Nat.mod_eq_of_lt hx, Nat.mod_eq_of_lt hy]

/-- A lesser character has lesser bytes, whatever comes after them. -/
theorem utf8EncodeChar_append_lt {c d : Char} (h : c < d) (xs ys : List UInt8) :
    utf8EncodeChar c ++ xs < utf8EncodeChar d ++ ys := by
  have hlt : c.val.toNat < d.val.toNat := h
  have hd : d.val.toNat < 0x110000 := by rcases d.valid with h | h <;> omega
  -- The six bits of each byte are the digits to the base 64.
  have h₂ (k : Nat) : k / 4096 = k / 64 / 64 := by omega
  have h₃ (k : Nat) : k / 262144 = k / 64 / 64 / 64 := by omega
  unfold utf8EncodeChar
  simp only
  generalize c.val.toNat = m at *
  generalize d.val.toNat = n at *
  clear h c d
  simp only [h₂, h₃]
  split_ifs <;>
    simp (disch := omega) only [List.cons_append, List.nil_append, byte_cons_lt_iff] <;> omega

theorem flatMap_utf8EncodeChar_lt (h : as < bs) :
    as.flatMap utf8EncodeChar < bs.flatMap utf8EncodeChar := by
  induction h with
  | @nil b bs =>
    rw [List.flatMap_cons]
    cases hb : utf8EncodeChar b with
    | nil => exact absurd hb utf8EncodeChar_ne_nil
    | cons x xs => exact List.nil_lt_cons _ _
  | rel h => exact utf8EncodeChar_append_lt h _ _
  | cons h ih => exact List.append_left_lt ih

/-- The order of texts is that of their bytes. -/
theorem lt_iff_bytes_lt (s t : String) :
    s < t ↔ s.toUTF8.data.toList < t.toUTF8.data.toList := by
  have hb (s : String) : s.toUTF8.data.toList = s.toList.flatMap utf8EncodeChar := by
    rw [toUTF8_eq_toByteArray, ← utf8Encode_toList, List.utf8Encode, List.toList_data_toByteArray]
  rw [hb, hb, String.lt_iff]
  refine ⟨flatMap_utf8EncodeChar_lt, fun h => ?_⟩
  rcases Std.lt_trichotomy s.toList t.toList with hl | he | hg
  · exact hl
  · rw [he] at h
    exact absurd h (List.lt_irrefl _)
  · exact absurd (flatMap_utf8EncodeChar_lt hg) (List.lt_asymm h)

end Bytes

end Ensembles
