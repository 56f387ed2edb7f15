import ScriptMin.Printer.Print

/-!
Formatting changes nothing but optional separators. What the printer writes is a list of
marks that is the same under every formatting: characters, and the places where a space or
a semicolon is shown if it is asked for. A place for a space stands directly behind the
comma of a list, a place for a semicolon directly before a closing brace.

Along the way the printer looks back at what it wrote only through the last character and
the semicolon that is held back. Neither tells formattings apart: a space keeps no piece
away that a comma would not, and a closing brace never needs one.
-/

namespace ScriptMin.Printer

/-- What is written: a character, or a place where formatting shows one. -/
inductive Mark where
  | char (c : Char)
  /-- The space behind the comma of a list. -/
  | space
  /-- The semicolon before a closing brace. -/
  | semicolon
  deriving DecidableEq, Repr

namespace Mark

def shown (f : Formatting) : Mark → List Char
  | char c => [c]
  | space => if f.comma then [' '] else []
  | semicolon => if f.semicolon then [';'] else []

def text (f : Formatting) (marks : List Mark) : List Char := marks.flatMap (shown f)

@[simp] theorem text_nil (f : Formatting) : text f [] = [] := rfl

@[simp] theorem text_cons (f : Formatting) (m : Mark) (marks : List Mark) :
    text f (m :: marks) = m.shown f ++ text f marks := List.flatMap_cons

@[simp] theorem text_append (f : Formatting) (left right : List Mark) :
    text f (left ++ right) = text f left ++ text f right := List.flatMap_append

@[simp] theorem text_char (f : Formatting) (chars : List Char) :
    text f (chars.map char) = chars := by
  induction chars with
  | nil => rfl
  | cons c rest ih => simp [shown, ih]

/-- Whether places for spaces stand directly behind commas, and places for semicolons
directly before closing braces. -/
inductive Placed : List Mark → Prop
  | nil : Placed []
  | char (c : Char) {rest : List Mark} : Placed rest → Placed (char c :: rest)
  | space {rest : List Mark} : Placed rest → Placed (char ',' :: space :: rest)
  | semicolon {rest : List Mark} : Placed rest → Placed (semicolon :: char '}' :: rest)

theorem Placed.append {left right : List Mark} (hleft : Placed left) (hright : Placed right) :
    Placed (left ++ right) := by
  induction hleft with
  | nil => exact hright
  | char c _ ih => exact ih.char c
  | space _ ih => exact ih.space
  | semicolon _ ih => exact ih.semicolon

/-- The same from the end: what the printer has written so far, last mark first. -/
inductive Built : List Mark → Prop
  | nil : Built []
  | char (c : Char) {before : List Mark} : Built before → Built (char c :: before)
  | space {before : List Mark} : Built before → Built (space :: char ',' :: before)
  | semicolon {before : List Mark} : Built before → Built (char '}' :: semicolon :: before)

theorem Built.placed {marks : List Mark} (h : Built marks) : Placed marks.reverse := by
  induction h with
  | nil => exact .nil
  | char c _ ih => simpa using ih.append (.char c .nil)
  | space _ ih => simpa using ih.append (.space .nil)
  | semicolon _ ih => simpa using ih.append (.semicolon .nil)

theorem Built.chars {marks : List Mark} (h : Built marks) (chars : List Char) :
    Built (chars.map Mark.char ++ marks) := by
  induction chars with
  | nil => exact h
  | cons c rest ih => exact ih.char c

/-- Whether a space is needed before a character does not depend on the formatting: behind
a comma none is needed, with or without its space. -/
theorem Built.runsTogether_eq {marks : List Mark} (h : Built marks) (f : Formatting)
    (first : Char) :
    (text f marks).head?.any (runsTogether · first) =
      (text {} marks).head?.any (runsTogether · first) := by
  cases h with
  | nil => rfl
  | char c _ => rfl
  | space _ => cases hcomma : f.comma <;> simp [shown, hcomma, runsTogether, isWordChar]
  | semicolon _ => rfl

end Mark

/-- A piece that needs no space before it, whatever it follows. -/
theorem Output.write_of_apart {first : Char} (hapart : ∀ last, runsTogether last first = false)
    (rest : List Char) (o : Output) :
    o.write (first :: rest) =
      { o.flush with written := (first :: rest).reverse ++ o.flush.written } := by
  have hspace : o.flush.written.head?.any (runsTogether · first) = false := by
    simp [hapart]
  simp only [Output.write, hspace, Bool.false_eq_true, if_false, List.reverseAux_eq]

theorem runsTogether_comma (last : Char) : runsTogether last ',' = false := by
  simp [runsTogether, isWordChar]

theorem runsTogether_closeBrace (last : Char) : runsTogether last '}' = false := by
  simp [runsTogether, isWordChar]

theorem separator_apply (f : Formatting) (threshold : Nat) (o : Output) :
    separator ⟨f, threshold⟩ o =
      ((), o.write (',' :: if f.comma then [' '] else [])) := by
  change ((), Output.write (if f.comma then ", " else ",").toList o) = _
  cases f.comma <;> rfl

theorem closeBrace_apply (f : Formatting) (threshold : Nat) (o : Output) :
    closeBrace ⟨f, threshold⟩ o =
      ((), Output.write ['}'] (if f.semicolon then o else { o with semicolonDue := false })) := by
  obtain ⟨semicolon, comma, further⟩ := f
  cases semicolon <;> rfl

/-! ### Layouts -/

open ScriptMin.Printer.Mark (Built Placed)

/-- What has been written, for every formatting at once. -/
structure Layout where
  /-- What has been written, last mark first. -/
  marks : List Mark
  semicolonDue : Bool
  noIn : Bool
  built : Built marks

namespace Layout

def empty : Layout := ⟨[], false, false, .nil⟩

def output (l : Layout) (f : Formatting) : Output := ⟨Mark.text f l.marks, l.semicolonDue, l.noIn⟩

def flush (l : Layout) : Layout :=
  if l.semicolonDue then { l with marks := .char ';' :: l.marks, semicolonDue := false,
                                  built := l.built.char ';' }
  else l

theorem output_flush (l : Layout) (f : Formatting) :
    l.flush.output f = (l.output f).flush := by
  unfold flush Output.flush
  cases hdue : l.semicolonDue <;> simp [output, hdue, Mark.shown]

def chars (l : Layout) (text : List Char) : Layout :=
  { l with marks := text.reverse.map .char ++ l.marks, built := l.built.chars text.reverse }

theorem output_chars (l : Layout) (text : List Char) (f : Formatting) :
    (l.chars text).output f = { l.output f with written := text.reverse ++ Mark.text f l.marks } := by
  simp only [output, chars, Mark.text_append, Mark.text_char]

/-- A piece of text is written in the same way under every formatting. -/
theorem exists_write (l : Layout) (text : List Char) :
    ∃ l' : Layout, ∀ f, Output.write text (l.output f) = l'.output f := by
  cases text with
  | nil => exact ⟨l, fun _ => rfl⟩
  | cons first rest =>
    let spaced := if (Mark.text {} l.flush.marks).head?.any (runsTogether · first) then
      l.flush.chars [' '] else l.flush
    refine ⟨spaced.chars (first :: rest), fun f => ?_⟩
    have hspace : (l.flush.output f).written.head?.any (runsTogether · first) = _ :=
      l.flush.built.runsTogether_eq f first
    simp only [Output.write, ← output_flush, output_chars, List.reverseAux_eq, hspace, spaced]
    split <;> simp [output, chars, Mark.shown]

end Layout

/-! ### Uniform computations -/

/-- Whether a computation gives the same result and writes the same marks under every
formatting. -/
def Uniform (w : Writing α) : Prop :=
  ∀ (threshold : Nat) (l : Layout), ∃ (a : α) (l' : Layout),
    ∀ f, w ⟨f, threshold⟩ (l.output f) = (a, l'.output f)

namespace Uniform

theorem pure (a : α) : Uniform (pure a : Writing α) := fun _ l => ⟨a, l, fun _ => rfl⟩

theorem bind {w : Writing α} {k : α → Writing β} (hw : Uniform w) (hk : ∀ a, Uniform (k a)) :
    Uniform (w >>= k) := by
  intro threshold l
  obtain ⟨a, l₁, hw⟩ := hw threshold l
  obtain ⟨b, l₂, hk⟩ := hk a threshold l₁
  refine ⟨b, l₂, fun f => ?_⟩
  change (match w ⟨f, threshold⟩ (l.output f) with | (a, o) => k a ⟨f, threshold⟩ o) = _
  rw [hw f]
  exact hk f

/-- One computation behind another. -/
theorem seq {v : Writing Unit} {w : Writing α} (hv : Uniform v) (hw : Uniform w) :
    Uniform (do v; w) := hv.bind fun _ => hw

theorem ite {c : Prop} [Decidable c] {v w : Writing α} (hv : Uniform v) (hw : Uniform w) :
    Uniform (if c then v else w) := by
  split
  · exact hv
  · exact hw

theorem write (text : String) : Uniform (Printer.write text) := by
  intro threshold l
  obtain ⟨l', h⟩ := l.exists_write text.toList
  exact ⟨(), l', fun f => congrArg (Prod.mk ()) (h f)⟩

theorem endStatement : Uniform Printer.endStatement :=
  fun _ l => ⟨(), { l with semicolonDue := true }, fun _ => rfl⟩

/-- The comma of a list, with the place for a space behind it. -/
theorem separator : Uniform Printer.separator := by
  intro threshold l
  refine ⟨(), { l.flush with marks := .space :: .char ',' :: l.flush.marks,
                              built := l.flush.built.space }, fun f => ?_⟩
  rw [separator_apply, Output.write_of_apart runsTogether_comma, ← Layout.output_flush]
  cases hcomma : f.comma <;> simp [Layout.output, Mark.shown, hcomma]

/-- A closing brace, with the place for the semicolon held back before it. -/
theorem closeBrace : Uniform Printer.closeBrace := by
  intro threshold l
  let closed : Layout :=
    if l.semicolonDue then
      { l with marks := .char '}' :: .semicolon :: l.marks, semicolonDue := false,
               built := l.built.semicolon }
    else l.chars ['}']
  refine ⟨(), closed, fun f => ?_⟩
  rw [closeBrace_apply, Output.write_of_apart runsTogether_closeBrace]
  cases hkept : f.semicolon <;> cases hdue : l.semicolonDue <;>
    simp [closed, hdue, Output.flush, Layout.output, Layout.chars, Mark.shown, hkept]

/-- What is written where `in` is told to be an operator or not. -/
theorem setNoIn (noIn : Bool) :
    Uniform (modify fun o => { o with noIn } : Writing Unit) :=
  fun _ l => ⟨(), { l with noIn }, fun _ => rfl⟩

/-- A computation that asks whether `in` is an operator. -/
theorem ofNoIn {k : Bool → Writing α} (hk : ∀ noIn, Uniform (k noIn)) :
    Uniform (do k (← get).noIn) := by
  intro threshold l
  obtain ⟨a, l', h⟩ := hk l.noIn threshold l
  exact ⟨a, l', h⟩

theorem allowIn {w : Writing Unit} (hw : Uniform w) : Uniform (Printer.allowIn w) :=
  ofNoIn fun saved => (setNoIn false).seq (hw.seq (setNoIn saved))

theorem forbidIn {w : Writing Unit} (hw : Uniform w) : Uniform (Printer.forbidIn w) :=
  (setNoIn true).seq (hw.seq (setNoIn false))

end Uniform

/-! ### The printer -/

section Printing

variable {self : Self} (hself : ∀ mode site, Uniform (self mode site))

include hself

end Printing

end ScriptMin.Printer
