import Mathlib.Data.List.Basic
import ScriptMin.Data.Value
import ScriptMin.Data.Written
import ScriptMin.Proofs.Number.DataText

/-!
The text of a data value tells the value. A text ends where its value ends, unless the value is a
number and the text behind it goes on with a character of a number: no text of a value is the
beginning of that of another one.
-/

namespace ScriptMin

/-! ### Strings -/

namespace Data

def mark (c : Char) : Mark :=
  if c.toNat < 0x20 ∧ c ∉ ['\n', '\r', '\t', '\x08', '\x0c'] then .unit c.toNat else .char c

theorem mark_injective {c d : Char} (h : mark c = mark d) : c = d := by
  rw [mark, mark] at h
  split at h
  · split at h
    · exact Char.toNat_inj.mp (Mark.unit.inj h)
    · cases h
  · split at h
    · cases h
    · exact Mark.char.inj h

theorem readString_skip (skipped : List Char) (acc : List Mark) (rest : List Char) :
    Written.readString skipped.length acc (skipped ++ rest) = Written.readString 0 acc rest := by
  induction skipped with
  | nil => rfl
  | cons c skipped ih => rw [List.cons_append, List.length_cons, Written.readString, ih]

/-- The written form of a character is read as the character. -/
theorem readString_escapedChar (c : Char) (acc : List Mark) (rest : List Char) :
    Written.readString 0 acc (escapedChar c ++ rest) = Written.readString 0 (mark c :: acc) rest := by
  unfold escapedChar
  split
  case h_8 hquote hslash hn hr ht hb hf =>
      split
      case isTrue hcontrol =>
          have hmark : mark c = .unit c.toNat := by
            have hnamed : c ∉ ['\n', '\r', '\t', '\x08', '\x0c'] := by
              simp only [List.mem_cons, List.not_mem_nil, or_false, not_or]
              exact ⟨hn, hr, ht, hb, hf⟩
            rw [mark, if_pos ⟨hcontrol, hnamed⟩]
          have hcode : Written.readEscape 'u' (Text.hexText 4 c.toNat ++ rest) =
              some (.unit c.toNat, ('u' :: Text.hexText 4 c.toNat).length) := by
            rw [List.length_cons, Lexeme.length_hexText (by decide) (by omega),
              Written.readEscape, Lexeme.hexCode?_hexText (by decide) (by omega)]
            rfl
          have hskip := readString_skip ('u' :: Text.hexText 4 c.toNat) (.unit c.toNat :: acc) rest
          rw [hmark, ← hskip]
          rw [List.cons_append, List.cons_append, Written.readString,
            if_neg (by decide), if_pos rfl, hcode]
      case isFalse hcontrol =>
          have hmark : mark c = .char c := by rw [mark, if_neg (fun h => hcontrol h.1)]
          rw [List.singleton_append, Written.readString.eq_def, hmark]
          dsimp only
          rw [if_neg hquote, if_neg hslash, if_neg hcontrol]
  all_goals rfl

theorem readString_quoted (text : String) (rest : List Char) :
    Written.readString 0 [] (text.toList.flatMap escapedChar ++ '"' :: rest) =
      some (text.toList.map mark, rest) := by
  have hrun (chars : List Char) (acc : List Mark) :
      Written.readString 0 acc (chars.flatMap escapedChar ++ '"' :: rest) =
        some (acc.reverse ++ chars.map mark, rest) := by
    induction chars generalizing acc with
    | nil => simp [Written.readString]
    | cons c chars ih =>
        rw [List.flatMap_cons, List.append_assoc, readString_escapedChar, ih]
        simp
  exact hrun text.toList []

/-- A quoted text tells the text and where it ends. -/
theorem quotedChars_append_inj {a b : String} {s t : List Char}
    (h : quotedChars a ++ s = quotedChars b ++ t) : a = b ∧ s = t := by
  simp only [quotedChars, List.append_assoc, List.cons_append, List.nil_append, List.cons.injEq,
    true_and] at h
  have hboth := readString_quoted a s
  rw [h, readString_quoted b t, Option.some_inj, Prod.mk.injEq] at hboth
  have hlist := List.map_injective_iff.mpr (fun _ _ => mark_injective) hboth.1
  exact ⟨String.toList_inj.mp hlist.symm, hboth.2.symm⟩

/-! ### Kinds -/

mutual
def floats : Data → List Number
  | float value => [value]
  | array items => itemFloats items
  | object fields => fieldFloats fields
  | _ => []

def itemFloats : List Data → List Number
  | [] => []
  | item :: rest => floats item ++ itemFloats rest

def fieldFloats : List (String × Data) → List Number
  | [] => []
  | (_, value) :: rest => floats value ++ fieldFloats rest
end

/-- What the first character of a text tells about its value. -/
inductive Kind where
  | null
  | bool (value : Bool)
  | number
  | string
  | array
  | object
  deriving DecidableEq

def kind : Data → Kind
  | null => .null
  | bool value => .bool value
  | int _ => .number
  | float _ => .number
  | string _ => .string
  | array _ => .array
  | object _ => .object

/-- Kind of the values whose texts begin with a character. -/
def kindOf (c : Char) : Kind :=
  match c with
  | 'n' => .null
  | 't' => .bool true
  | 'f' => .bool false
  | '"' => .string
  | '[' => .array
  | '\x7b' => .object
  | _ => .number

theorem kindOf_of_isNumeral {c : Char} (h : isNumeral c) : kindOf c = .number := by
  unfold kindOf
  split
  case h_7 => rfl
  all_goals exact absurd h (by decide)

theorem kindOf_head_numeral {text : List Char} (hne : text ≠ []) (h : ∀ c ∈ text, isNumeral c) :
    text.head?.map kindOf = some .number := by
  rw [List.head?_eq_some_head hne, Option.map_some,
    kindOf_of_isNumeral (h _ (List.head_mem hne))]

theorem kindOf_head_chars {d : Data} (hd : ∀ v ∈ d.floats, v.isFinite) :
    d.chars.head?.map kindOf = some d.kind := by
  cases d with
  | null => rfl
  | bool value =>
      cases value with
      | true => rfl
      | false => rfl
  | int value =>
      exact kindOf_head_numeral (integerText_ne_nil value)
        fun _ hc => isNumeral_of_mem_integerText hc
  | float value =>
      have hfinite : value.isFinite := hd value (List.mem_singleton_self value)
      exact kindOf_head_numeral (Number.dataText_ne_nil hfinite)
        fun _ hc => Number.isNumeral_of_mem_dataText hfinite hc
  | string text => rfl
  | array items => rfl
  | object fields => rfl

theorem kindOf_head_append {d : Data} (hd : ∀ v ∈ d.floats, v.isFinite) (rest : List Char) :
    (d.chars ++ rest).head?.map kindOf = some d.kind := by
  have hhead := kindOf_head_chars hd
  rw [List.head?_append]
  cases hfirst : d.chars.head? with
  | none =>
      rw [hfirst] at hhead
      cases hhead
  | some c => rwa [Option.some_or, ← hfirst]

/-- Values with the same text ahead are of the same kind. -/
theorem kind_eq_of_append_eq {a b : Data} {s t : List Char} (ha : ∀ v ∈ a.floats, v.isFinite)
    (hb : ∀ v ∈ b.floats, v.isFinite) (h : a.chars ++ s = b.chars ++ t) : a.kind = b.kind := by
  have hboth := kindOf_head_append ha s
  rw [h, kindOf_head_append hb t] at hboth
  exact (Option.some.inj hboth).symm

/-! ### Values -/

/-- A text that does not go on with a number before it. -/
def Clear (text : List Char) : Prop := ∀ c ∈ text.head?, isNumeral c = false

/-- Where the characters of a class end, a text is divided in one way only. -/
theorem append_inj_of_forall {p : Char → Bool} {x y s t : List Char} (hx : ∀ c ∈ x, p c)
    (hy : ∀ c ∈ y, p c) (hs : ∀ c ∈ s.head?, p c = false) (ht : ∀ c ∈ t.head?, p c = false)
    (h : x ++ s = y ++ t) : x = y ∧ s = t := by
  have htake : ∀ {text rest : List Char}, (∀ c ∈ text, p c) → (∀ c ∈ rest.head?, p c = false) →
      (text ++ rest).takeWhile p = text := by
    intro text rest htext hrest
    rw [List.takeWhile_append_of_pos htext]
    cases rest with
    | nil => simp
    | cons c rest => simp [hrest c rfl]
  have hsame : x = y := by rw [← htake hx hs, h, htake hy ht]
  subst hsame
  exact ⟨rfl, List.append_cancel_left h⟩

theorem isNumeral_of_mem_chars {d : Data} (hd : ∀ v ∈ d.floats, v.isFinite)
    (h : d.kind = .number) {c : Char} (hc : c ∈ d.chars) : isNumeral c := by
  cases d with
  | int value => exact isNumeral_of_mem_integerText hc
  | float value =>
      exact Number.isNumeral_of_mem_dataText (hd value (List.mem_singleton_self value)) hc
  | _ => cases h

/-- Numbers with the same text are equal. -/
theorem number_eq_of_chars_eq {a b : Data} (ha : ∀ v ∈ a.floats, v.isFinite)
    (hb : ∀ v ∈ b.floats, v.isFinite) (hka : a.kind = .number) (hkb : b.kind = .number)
    (h : a.chars = b.chars) : a = b := by
  cases a with
  | int k =>
      cases b with
      | int l => exact congrArg int (integerText_injective h)
      | float w =>
          exact absurd h.symm (Number.dataText_ne_integerText (hb w (List.mem_singleton_self w)) k)
      | _ => cases hkb
  | float v =>
      have hv : v.isFinite := ha v (List.mem_singleton_self v)
      cases b with
      | int l => exact absurd h (Number.dataText_ne_integerText hv l)
      | float w =>
          have hw : w.isFinite := hb w (List.mem_singleton_self w)
          exact congrArg float (Number.dataText_injective hv hw (String.toList_inj.mp h))
      | _ => cases hkb
  | _ => cases hka

/-- Text behind an item of an array that is followed by the given ones. -/
def itemTail : List Data → List Char
  | [] => [']']
  | rest => ',' :: itemChars rest

def fieldTail : List (String × Data) → List Char
  | [] => ['\x7d']
  | rest => ',' :: fieldChars rest

theorem itemChars_cons (item : Data) (rest : List Data) :
    itemChars (item :: rest) = item.chars ++ itemTail rest := by
  cases rest with
  | nil => rfl
  | cons next rest => rfl

theorem fieldChars_cons (name : String) (value : Data) (rest : List (String × Data)) :
    fieldChars ((name, value) :: rest) =
      quotedChars name ++ ':' :: (value.chars ++ fieldTail rest) := by
  cases rest with
  | nil => simp [fieldChars, fieldTail]
  | cons next rest => simp [fieldChars, fieldTail]

theorem clear_itemTail (rest : List Data) (s : List Char) : Clear (itemTail rest ++ s) := by
  cases rest with
  | nil => exact fun _ hc => by cases hc; rfl
  | cons next rest => exact fun _ hc => by cases hc; rfl

theorem clear_fieldTail (rest : List (String × Data)) (s : List Char) :
    Clear (fieldTail rest ++ s) := by
  cases rest with
  | nil => exact fun _ hc => by cases hc; rfl
  | cons next rest => exact fun _ hc => by cases hc; rfl

theorem itemChars_eq_of_itemTail_eq {rest rest' : List Data} {s t : List Char}
    (h : itemTail rest ++ s = itemTail rest' ++ t) :
    itemChars rest ++ s = itemChars rest' ++ t := by
  cases rest with
  | nil =>
      cases rest' with
      | nil => exact h
      | cons next' rest' => cases h
  | cons next rest =>
      cases rest' with
      | nil => cases h
      | cons next' rest' => exact (List.cons.inj h).2

theorem fieldChars_eq_of_fieldTail_eq {rest rest' : List (String × Data)} {s t : List Char}
    (h : fieldTail rest ++ s = fieldTail rest' ++ t) :
    fieldChars rest ++ s = fieldChars rest' ++ t := by
  cases rest with
  | nil =>
      cases rest' with
      | nil => exact h
      | cons next' rest' => cases h
  | cons next rest =>
      cases rest' with
      | nil => cases h
      | cons next' rest' => exact (List.cons.inj h).2

/-- No item begins with the end of an array. -/
theorem itemChars_cons_ne_end {item : Data} (rest : List Data) {s t : List Char}
    (hd : ∀ v ∈ item.floats, v.isFinite) : itemChars (item :: rest) ++ s ≠ ']' :: t := by
  intro h
  rw [itemChars_cons, List.append_assoc] at h
  have hkind := kindOf_head_append hd (itemTail rest ++ s)
  have hhead := kindOf_head_chars hd
  rw [h] at hkind
  have hnumber : item.kind = .number := (Option.some.inj hkind).symm
  cases hchars : item.chars with
  | nil =>
      rw [hchars] at hhead
      cases hhead
  | cons c chars =>
      rw [hchars] at h
      cases h
      have hnumeral := isNumeral_of_mem_chars hd hnumber (hchars ▸ List.mem_cons_self)
      exact absurd hnumeral (by decide)

mutual
/-- The text of a value tells the value and where it ends. -/
theorem chars_append_inj (a b : Data) {s t : List Char} (ha : ∀ v ∈ a.floats, v.isFinite)
    (hb : ∀ v ∈ b.floats, v.isFinite) (hs : Clear s) (ht : Clear t)
    (h : a.chars ++ s = b.chars ++ t) : a = b ∧ s = t := by
  have hkind := kind_eq_of_append_eq ha hb h
  have number (hka : a.kind = .number) : a = b ∧ s = t := by
    have hkb : b.kind = .number := hkind.symm.trans hka
    obtain ⟨hchars, hrest⟩ := append_inj_of_forall (fun _ hc => isNumeral_of_mem_chars ha hka hc)
      (fun _ hc => isNumeral_of_mem_chars hb hkb hc) hs ht h
    exact ⟨number_eq_of_chars_eq ha hb hka hkb hchars, hrest⟩
  match a with
  | null =>
      cases b with
      | null => exact ⟨rfl, List.append_cancel_left h⟩
      | _ => cases hkind
  | bool value =>
      cases b with
      | bool value' =>
          cases hkind
          exact ⟨rfl, List.append_cancel_left h⟩
      | _ => cases hkind
  | int value => exact number rfl
  | float value => exact number rfl
  | string text =>
      cases b with
      | string text' =>
          obtain ⟨htext, hrest⟩ := quotedChars_append_inj h
          exact ⟨congrArg string htext, hrest⟩
      | _ => cases hkind
  | array items =>
      cases b with
      | array items' =>
          obtain ⟨hitems, hrest⟩ := itemChars_append_inj items items' ha hb (List.cons.inj h).2
          exact ⟨congrArg array hitems, hrest⟩
      | _ => cases hkind
  | object fields =>
      cases b with
      | object fields' =>
          obtain ⟨hfields, hrest⟩ := fieldChars_append_inj fields fields' ha hb (List.cons.inj h).2
          exact ⟨congrArg object hfields, hrest⟩
      | _ => cases hkind

/-- The text of the items of an array tells the items and where it ends. -/
theorem itemChars_append_inj (items items' : List Data) {s t : List Char}
    (ha : ∀ v ∈ itemFloats items, v.isFinite) (hb : ∀ v ∈ itemFloats items', v.isFinite)
    (h : itemChars items ++ s = itemChars items' ++ t) : items = items' ∧ s = t := by
  match items with
  | [] =>
      cases items' with
      | nil => exact ⟨rfl, List.append_cancel_left h⟩
      | cons item' rest' =>
          rw [itemFloats, List.forall_mem_append] at hb
          exact absurd h.symm (itemChars_cons_ne_end rest' hb.1)
  | item :: rest =>
      rw [itemFloats, List.forall_mem_append] at ha
      cases items' with
      | nil => exact absurd h (itemChars_cons_ne_end rest ha.1)
      | cons item' rest' =>
          rw [itemFloats, List.forall_mem_append] at hb
          rw [itemChars_cons, itemChars_cons, List.append_assoc, List.append_assoc] at h
          obtain ⟨hitem, htail⟩ := chars_append_inj item item' ha.1 hb.1 (clear_itemTail rest s)
            (clear_itemTail rest' t) h
          obtain ⟨hrest, hbehind⟩ := itemChars_append_inj rest rest' ha.2 hb.2
            (itemChars_eq_of_itemTail_eq htail)
          exact ⟨by rw [hitem, hrest], hbehind⟩

/-- The text of the fields of an object tells the fields and where it ends. -/
theorem fieldChars_append_inj (fields fields' : List (String × Data)) {s t : List Char}
    (ha : ∀ v ∈ fieldFloats fields, v.isFinite) (hb : ∀ v ∈ fieldFloats fields', v.isFinite)
    (h : fieldChars fields ++ s = fieldChars fields' ++ t) : fields = fields' ∧ s = t := by
  match fields with
  | [] =>
      cases fields' with
      | nil => exact ⟨rfl, List.append_cancel_left h⟩
      | cons field' rest' =>
          rw [fieldChars_cons] at h
          cases h
  | (name, value) :: rest =>
      rw [fieldFloats, List.forall_mem_append] at ha
      cases fields' with
      | nil =>
          rw [fieldChars_cons] at h
          cases h
      | cons field' rest' =>
          rw [fieldFloats, List.forall_mem_append] at hb
          rw [fieldChars_cons, fieldChars_cons, List.append_assoc, List.append_assoc] at h
          obtain ⟨hname, hvalue⟩ := quotedChars_append_inj h
          rw [List.cons_append, List.cons_append, List.append_assoc, List.append_assoc] at hvalue
          obtain ⟨heq, htail⟩ := chars_append_inj value field'.2 ha.1 hb.1 (clear_fieldTail rest s)
            (clear_fieldTail rest' t) (List.cons.inj hvalue).2
          obtain ⟨hrest, hbehind⟩ := fieldChars_append_inj rest rest' ha.2 hb.2
            (fieldChars_eq_of_fieldTail_eq htail)
          exact ⟨by rw [hname, heq, hrest], hbehind⟩
end

end Data

end ScriptMin
