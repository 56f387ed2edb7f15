import Mathlib.Data.List.Nodup
import Mathlib.Data.Set.Function
import ScriptMin.Text.Short

/-!
Generated names and compact numerals. Different indices have different names, and different numbers
have different numerals. Every text of letters is a generated name, and shorter names have smaller
indices.
-/

namespace ScriptMin.Text

theorem nodup_letters : letters.Nodup := by decide

theorem length_letters : letters.length = 52 := by decide

/-- In a list without duplicates what stands at a position tells the position. -/
theorem getD_inj {digits : List Char} (hnodup : digits.Nodup) {i j : Nat} {c : Char}
    (hi : i < digits.length) (hj : j < digits.length)
    (h : digits[i]?.getD c = digits[j]?.getD c) : i = j := by
  rw [List.getElem?_eq_getElem hi, List.getElem?_eq_getElem hj, Option.getD_some,
    Option.getD_some] at h
  exact (hnodup.getElem_inj_iff).mp h

/-- The letter of a digit tells the digit. -/
theorem letter_inj {i j : Nat} (hi : i < 52) (hj : j < 52)
    (h : letters[i]?.getD 'a' = letters[j]?.getD 'a') : i = j :=
  getD_inj nodup_letters (length_letters ▸ hi) (length_letters ▸ hj) h

/-! ### Names from their first letter on -/

theorem sizeClass_of_le {index count : Nat} (length : Nat) (hcount : 0 < count)
    (h : count ≤ index) :
    sizeClass index count length = sizeClass (index - count) (count * 52) (length + 1) := by
  rw [sizeClass, if_pos ⟨hcount, h⟩]

theorem sizeClass_of_lt {index count : Nat} (length : Nat) (h : index < count) :
    sizeClass index count length = (length, index) := by
  rw [sizeClass, if_neg fun hle => Nat.not_le.mpr h hle.2]

/-- A further letter in front makes a name longer by one and the names of each length 52 times
as many: the lengths that are passed over stay the same ones. -/
theorem sizeClass_cons {index count : Nat} (length : Nat) {digit : Nat} (hcount : 0 < count)
    (hdigit : digit < 52) :
    sizeClass (index * 52 + digit) (count * 52) (length + 1) =
      ((sizeClass index count length).1 + 1, (sizeClass index count length).2 * 52 + digit) := by
  induction index, count, length using sizeClass.induct with
  | case1 index count length h ih =>
      have hle : count * 52 ≤ index * 52 + digit := by omega
      have hsub : index * 52 + digit - count * 52 = (index - count) * 52 + digit := by omega
      rw [sizeClass_of_le length hcount h.2, sizeClass_of_le (length + 1) (by omega) hle, hsub]
      exact ih (by omega)
  | case2 index count length h =>
      have hlt : index < count := by omega
      rw [sizeClass_of_lt length hlt, sizeClass_of_lt (length + 1) (by omega)]

/-- The first letter of a name tells the last digit of the index, and the others are the name of
a smaller index. -/
theorem nameChars_eq (i : Nat) : nameChars i =
    letters[i % 52]?.getD 'a' :: if 52 ≤ i then nameChars (i / 52 - 1) else [] := by
  simp only [nameChars, length_letters]
  split
  case isTrue h =>
    have hsub : i - 52 = (i / 52 - 1) * 52 + i % 52 := by omega
    have hmod : ((sizeClass (i / 52 - 1) 52 1).2 * 52 + i % 52) % 52 = i % 52 := by omega
    have hdiv : ((sizeClass (i / 52 - 1) 52 1).2 * 52 + i % 52) / 52 =
        (sizeClass (i / 52 - 1) 52 1).2 := by omega
    rw [sizeClass_of_le 1 (by decide) h, hsub,
      sizeClass_cons 1 (by decide) (Nat.mod_lt i (by decide)), nameDigits, hmod, hdiv]
  case isFalse h =>
    rw [sizeClass_of_lt 1 (Nat.not_le.mp h), nameDigits, nameDigits]

theorem nameChars_ne_nil (i : Nat) : nameChars i ≠ [] := by
  rw [nameChars_eq]
  exact List.cons_ne_nil _ _

/-- A name is read from its first letter on: what is behind it is the name of a smaller index. -/
theorem nameChars_inj {i j : Nat} (h : nameChars i = nameChars j) : i = j := by
  induction i using Nat.strongRecOn generalizing j with
  | _ i ih =>
      obtain ⟨hletter, hrest⟩ := List.cons_eq_cons.mp
        ((nameChars_eq i).symm.trans (h.trans (nameChars_eq j)))
      have hmod := letter_inj (Nat.mod_lt i (by decide)) (Nat.mod_lt j (by decide)) hletter
      by_cases hi : 52 ≤ i <;> by_cases hj : 52 ≤ j
      · rw [if_pos hi, if_pos hj] at hrest
        have hdiv := ih (i / 52 - 1) (by omega) hrest
        omega
      · rw [if_pos hi, if_neg hj] at hrest
        exact absurd hrest (nameChars_ne_nil _)
      · rw [if_neg hi, if_pos hj] at hrest
        exact absurd hrest.symm (nameChars_ne_nil _)
      · omega

theorem shortName_inj {i j : Nat} (h : shortName i = shortName j) : i = j :=
  nameChars_inj (String.ofList_inj.mp h)

theorem shortName_injective : Function.Injective shortName := fun _ _ => shortName_inj

/-! ### All names of letters -/

theorem mem_letters {i : Nat} (hi : i < 52) : letters[i]?.getD 'a' ∈ letters := by
  have hi' : i < letters.length := length_letters ▸ hi
  rw [List.getElem?_eq_getElem hi', Option.getD_some]
  exact List.getElem_mem hi'

/-- Generated names are made of the letters without accents. -/
theorem mem_letters_iff {c : Char} : c ∈ letters ↔ c.isAlpha := by
  constructor
  · have hall : letters.all Char.isAlpha := by decide
    exact List.all_eq_true.mp hall c
  · intro h
    have hrange : c.toNat < 128 := by
      have hranges : c.isAlpha = (decide (c.val ≥ 'A'.val ∧ c.val ≤ 'Z'.val) ||
          decide (c.val ≥ 'a'.val) && decide (c.val ≤ 'z'.val)) := rfl
      simp only [hranges, Bool.or_eq_true, Bool.and_eq_true, decide_eq_true_eq, ge_iff_le,
        UInt32.le_iff_toNat_le] at h
      rcases h with h | h <;> exact Nat.lt_of_le_of_lt h.2 (by decide)
    have hall : ∀ n < 128, (Char.ofNat n).isAlpha → Char.ofNat n ∈ letters := by decide +kernel
    simpa only [Char.ofNat_toNat] using hall c.toNat hrange (by rwa [Char.ofNat_toNat])

theorem mem_letters_of_mem_nameChars {i : Nat} {c : Char} (h : c ∈ nameChars i) : c ∈ letters := by
  induction i using Nat.strongRecOn with
  | _ i ih =>
      rw [nameChars_eq] at h
      rcases List.mem_cons.mp h with rfl | hrest
      · exact mem_letters (Nat.mod_lt i (by decide))
      · split at hrest
        · exact ih (i / 52 - 1) (by omega) hrest
        · cases hrest

/-- Letters are a name of their own, or come before the letters of some name. -/
theorem exists_nameChars {chars : List Char} (hne : chars ≠ []) (h : ∀ c ∈ chars, c ∈ letters) :
    ∃ i, nameChars i = chars := by
  induction chars with
  | nil => exact absurd rfl hne
  | cons c rest ih =>
      obtain ⟨hc, hrest⟩ := List.forall_mem_cons.mp h
      obtain ⟨digit, hget⟩ := List.getElem?_of_mem hc
      have hdigit : digit < 52 := length_letters ▸ (List.getElem?_eq_some_iff.mp hget).1
      have hletter : letters[digit]?.getD 'a' = c := by rw [hget, Option.getD_some]
      by_cases hnil : rest = []
      · refine ⟨digit, ?_⟩
        rw [nameChars_eq, Nat.mod_eq_of_lt hdigit, if_neg (Nat.not_le.mpr hdigit), hletter, hnil]
      · obtain ⟨j, hj⟩ := ih hnil hrest
        refine ⟨(j + 1) * 52 + digit, ?_⟩
        have hmod : ((j + 1) * 52 + digit) % 52 = digit := by omega
        have hdiv : ((j + 1) * 52 + digit) / 52 - 1 = j := by omega
        rw [nameChars_eq, hmod, if_pos (by omega), hdiv, hj, hletter]

/-- Short names come first. -/
theorem length_nameChars_mono {i j : Nat} (h : i ≤ j) :
    (nameChars i).length ≤ (nameChars j).length := by
  induction i using Nat.strongRecOn generalizing j with
  | _ i ih =>
      rw [nameChars_eq i, nameChars_eq j, List.length_cons, List.length_cons]
      refine Nat.succ_le_succ ?_
      by_cases hi : 52 ≤ i
      · rw [if_pos hi, if_pos (hi.trans h)]
        exact ih (i / 52 - 1) (by omega) (by omega)
      · rw [if_neg hi]
        exact Nat.zero_le _

def letterNames : Set String := {name | name ≠ "" ∧ ∀ c ∈ name.toList, c.isAlpha}

theorem bijOn_shortName : Set.BijOn shortName Set.univ letterNames := by
  refine ⟨?_, shortName_injective.injOn, ?_⟩
  · intro i _
    refine ⟨fun hempty => nameChars_ne_nil i ?_, fun c hc => ?_⟩
    · rw [← String.toList_ofList (l := nameChars i), ← shortName, hempty]
      rfl
    · rw [shortName, String.toList_ofList] at hc
      exact mem_letters_iff.mp (mem_letters_of_mem_nameChars hc)
  · rintro name ⟨hne, halpha⟩
    have hne' : name.toList ≠ [] := fun hnil => hne (String.toList_eq_nil_iff.mp hnil)
    obtain ⟨i, hi⟩ := exists_nameChars hne' fun c hc => mem_letters_iff.mpr (halpha c hc)
    exact ⟨i, Set.mem_univ i, by rw [shortName, hi, String.ofList_toList]⟩

theorem length_shortName_mono {i j : Nat} (h : i ≤ j) :
    (shortName i).length ≤ (shortName j).length := by
  simpa only [shortName, String.length_ofList] using length_nameChars_mono h

/-! ### Compact numerals -/

theorem nodup_compactDigits : compactDigits.Nodup := by decide

theorem length_compactDigits : compactDigits.length = 62 := by decide

/-- The digit for a value is one of the digits. -/
theorem mem_compactDigits {i : Nat} (hi : i < 62) : compactDigits[i]?.getD '0' ∈ compactDigits := by
  have hi' : i < compactDigits.length := length_compactDigits ▸ hi
  rw [List.getElem?_eq_getElem hi', Option.getD_some]
  exact List.getElem_mem hi'

theorem compactDigit_inj {i j : Nat} (hi : i < 62) (hj : j < 62)
    (h : compactDigits[i]?.getD '0' = compactDigits[j]?.getD '0') : i = j :=
  getD_inj nodup_compactDigits (length_compactDigits ▸ hi) (length_compactDigits ▸ hj) h

theorem compactChars_zero : compactChars 0 = [] := by
  rw [compactChars, if_pos rfl]

theorem compactChars_of_pos {n : Nat} (h : n ≠ 0) :
    compactChars n = compactDigits[n % 62]?.getD '0' :: compactChars (n / 62) := by
  rw [compactChars, if_neg h]

theorem mem_compactDigits_of_mem_compactChars {n : Nat} {c : Char} (h : c ∈ compactChars n) :
    c ∈ compactDigits := by
  induction n using Nat.strongRecOn with
  | _ n ih =>
      by_cases hn : n = 0
      · rw [hn, compactChars_zero] at h
        cases h
      · rw [compactChars_of_pos hn] at h
        rcases List.mem_cons.mp h with rfl | hrest
        · exact mem_compactDigits (Nat.mod_lt n (by decide))
        · exact ih (n / 62) (by omega) hrest

/-- A number is read from its last digit on: what is before it is a smaller number. -/
theorem compactChars_inj {m n : Nat} (h : compactChars m = compactChars n) : m = n := by
  induction m using Nat.strongRecOn generalizing n with
  | _ m ih =>
      by_cases hm : m = 0 <;> by_cases hn : n = 0
      · rw [hm, hn]
      · rw [hm, compactChars_zero, compactChars_of_pos hn] at h
        cases h
      · rw [hn, compactChars_zero, compactChars_of_pos hm] at h
        cases h
      · rw [compactChars_of_pos hm, compactChars_of_pos hn] at h
        obtain ⟨hdigit, hrest⟩ := List.cons_eq_cons.mp h
        have hmod := compactDigit_inj (Nat.mod_lt m (by decide)) (Nat.mod_lt n (by decide)) hdigit
        have hdiv := ih (m / 62) (by omega) hrest
        omega

/-- Zero is written with the digit that starts no other numeral. -/
theorem compactChars_ne_zero (n : Nat) : compactChars n ≠ ['0'] := by
  by_cases hn : n = 0
  · rw [hn, compactChars_zero]
    exact List.cons_ne_nil _ _ |>.symm
  · rw [compactChars_of_pos hn]
    intro h
    obtain ⟨hdigit, hrest⟩ := List.cons_eq_cons.mp h
    have hmod := compactDigit_inj (Nat.mod_lt n (by decide)) (j := 0) (by decide) hdigit
    have hdiv := compactChars_inj (hrest.trans compactChars_zero.symm)
    omega

theorem toList_compactNumeral (n : Nat) :
    (compactNumeral n).toList = if n = 0 then ['0'] else (compactChars n).reverse := by
  rw [compactNumeral]
  split
  · rfl
  · rw [String.toList_ofList]

theorem mem_compactDigits_of_mem_compactNumeral {n : Nat} {c : Char}
    (h : c ∈ (compactNumeral n).toList) : c ∈ compactDigits := by
  rw [toList_compactNumeral] at h
  split at h
  · rw [List.mem_singleton.mp h]
    decide
  · exact mem_compactDigits_of_mem_compactChars (List.mem_reverse.mp h)

theorem compactNumeral_ne_nil (n : Nat) : (compactNumeral n).toList ≠ [] := by
  rw [toList_compactNumeral]
  split
  · exact List.cons_ne_nil _ _
  · rw [compactChars_of_pos ‹_›, List.reverse_cons]
    exact List.append_ne_nil_of_right_ne_nil _ (List.cons_ne_nil _ _)

theorem compactNumeral_injective : Function.Injective compactNumeral := by
  intro m n h
  have hchars := congrArg String.toList h
  rw [toList_compactNumeral, toList_compactNumeral] at hchars
  split at hchars <;> split at hchars
  case isTrue.isTrue hm hn => rw [hm, hn]
  case isTrue.isFalse =>
      exact absurd (List.reverse_eq_iff.mp hchars.symm) (compactChars_ne_zero n)
  case isFalse.isTrue => exact absurd (List.reverse_eq_iff.mp hchars) (compactChars_ne_zero m)
  case isFalse.isFalse => exact compactChars_inj (List.reverse_injective hchars)

end ScriptMin.Text
