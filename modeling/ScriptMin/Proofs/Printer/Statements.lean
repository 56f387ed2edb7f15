import ScriptMin.Proofs.Grammar.Statements
import ScriptMin.Proofs.Printer.RoundTrip

/-!
How statements are written. The semicolon at the end of a statement is held back and is written
or dropped by what comes next, so the pieces of a statement depend on what follows it. With its
semicolon anything may stand behind a statement, without it a closing brace.
-/

namespace ScriptMin

open ScriptMin.Printer Text

namespace Printer

/-! ### Pieces behind which anything may stand -/

namespace Piece

theorem joins_of_keeps {p : Piece} (h : ∀ c, p.keeps c) (q : Piece) : p.joins q := by
  simp only [joins, h, Bool.or_true]
  cases q.text.head? <;> rfl

theorem joins_sealed {p : Punctuator} (h : p.isSealed) (q : Piece) : (Piece.sign p).joins q :=
  joins_of_keeps (p := .sign p) (Punctuator.keeps_of_isSealed h) q

/-- A space keeps a word apart from whatever would go on with it. -/
theorem joins_word {text : String} (h : isName text) (q : Piece) : (Piece.word text).joins q := by
  obtain ⟨last, hlast, hpart⟩ := last_of_word h
  rw [joins, Option.mem_def.mp hlast]
  cases q.text.head? with
  | none => rfl
  | some c =>
      cases hc : isNamePart c with
      | true => simp [runsTogether_of_isNamePart hpart hc]
      | false => simp [keeps, hc]

end Piece

/-- Pieces behind which any other piece may stand. -/
structure Loose (ps : List Piece) : Prop where
  valid : ∀ p ∈ ps, p.Valid
  chain : ps.IsChain fun p q => p.joins q
  ends : ∀ p ∈ ps.getLast?, ∀ q, p.joins q

variable {ps qs : List Piece}

namespace Loose

theorem single {p : Piece} (hvalid : p.Valid) (h : ∀ q, p.joins q) : Loose [p] where
  valid := by simpa using hvalid
  chain := .singleton p
  ends := by
    rintro _ ⟨⟩
    exact h

theorem word {text : String} (h : isName text) : Loose [.word text] :=
  .single h (Piece.joins_word h)

theorem sign {p : Punctuator} (h : p.isSealed) : Loose [.sign p] :=
  .single trivial (Piece.joins_sealed h)

theorem items (h : Loose ps) : Items ps := ⟨h.valid, h.chain, fun p hp q _ => h.ends p hp q⟩

theorem append_items (h : Loose ps) (h' : Items qs) : Items (ps ++ qs) where
  valid := List.forall_mem_append.mpr ⟨h.valid, h'.valid⟩
  chain := h.chain.append h'.chain fun p hp q _ => h.ends p hp q
  ends := by
    cases hqs : qs.getLast? with
    | none =>
        rw [List.getLast?_append, hqs, Option.none_or]
        exact h.items.ends
    | some last =>
        rw [List.getLast?_append, hqs, Option.some_or, ← hqs]
        exact h'.ends

theorem append (h : Loose ps) (h' : Loose qs) : Loose (ps ++ qs) where
  valid := (h.append_items h'.items).valid
  chain := (h.append_items h'.items).chain
  ends := by
    cases hqs : qs.getLast? with
    | none =>
        rw [List.getLast?_append, hqs, Option.none_or]
        exact h.ends
    | some last =>
        rw [List.getLast?_append, hqs, Option.some_or, ← hqs]
        exact h'.ends

/-- A closing bracket or a semicolon behind what it may stand behind. -/
theorem close (h : Items ps) {p : Punctuator} (hp : (Piece.sign p).closesItem) (hsealed : p.isSealed) :
    Loose (ps ++ [.sign p]) where
  valid := List.forall_mem_append.mpr ⟨h.valid, by simp [Piece.Valid]⟩
  chain := by
    refine h.chain.append (.singleton _) fun q hq q' hq' => ?_
    cases hq'
    exact h.ends q hq _ hp
  ends := by
    rw [List.getLast?_concat]
    rintro _ ⟨⟩
    exact Piece.joins_sealed hsealed

theorem semicolon (h : Items ps) : Loose (ps ++ [.sign .semicolon]) :=
  .close h rfl (by decide +kernel)

theorem parens (h : Items ps) : Loose (inParens ps) :=
  (sign (p := .openParen) (by decide +kernel)).append (.close h rfl (by decide +kernel))

/-- Pieces in braces. -/
theorem braces (h : Items ps) : Loose (.sign .openBrace :: (ps ++ [.sign .closeBrace])) :=
  (sign (p := .openBrace) (by decide +kernel)).append (.close h rfl (by decide +kernel))

end Loose

theorem Items.exists_text (h : Items ps) (hne : ps ≠ []) :
    ∃ p rest, ps = p :: rest ∧ p.text ≠ [] := by
  obtain ⟨p, rest, rfl⟩ := List.exists_cons_of_ne_nil hne
  exact ⟨p, rest, rfl, Piece.text_ne_nil (h.valid p List.mem_cons_self)⟩

/-! ### Pieces of statements -/

def semicolonPieces (kept : Bool) : List Piece := if kept then [.sign .semicolon] else []

/-- The pieces of a statement, with or without the semicolon at its end. -/
structure Passage (part : Bool → List Piece) : Prop where
  ne_nil : ∀ kept, part kept ≠ []
  loose : Loose (part true)
  items : ∀ kept, Items (part kept)

namespace Passage

variable {part : Bool → List Piece} {parts : List (Bool → List Piece)}

theorem const (h : Loose ps) (hne : ps ≠ []) : Passage fun _ => ps :=
  ⟨fun _ => hne, h, fun _ => h.items⟩

/-- A statement that ends with a semicolon. -/
theorem ended (h : Items ps) (hne : ps ≠ []) : Passage fun kept => ps ++ semicolonPieces kept where
  ne_nil kept := by simp [hne]
  loose := .semicolon h
  items kept := by
    cases kept with
    | true => exact (Loose.semicolon h).items
    | false =>
        rw [semicolonPieces, if_neg nofun, List.append_nil]
        exact h

/-- A statement that ends with another one. -/
theorem prepend (h : Loose ps) (h' : Passage part) : Passage fun kept => ps ++ part kept where
  ne_nil kept := by simp [h'.ne_nil kept]
  loose := h.append h'.loose
  items kept := h.append_items (h'.items kept)

theorem items_inSequence (h : ∀ part ∈ parts, Passage part) (kept : Bool) :
    Items (inSequence kept parts) := by
  induction parts with
  | nil => exact .nil
  | cons part rest ih =>
      have hrest := ih fun other hother => h other (List.mem_cons_of_mem part hother)
      have hpart := h part List.mem_cons_self
      cases rest with
      | nil =>
          rw [inSequence, inSequence, List.append_nil]
          exact hpart.items _
      | cons => exact hpart.loose.append_items hrest

end Passage

/-! ### The semicolon held back -/

namespace Output

/-- What a statement leaves, once the semicolon held back is written or dropped. -/
def settled (kept : Bool) (o : Output) : Output :=
  if kept then o.flush else { o with semicolonDue := false }

theorem settled_of_not_due {o : Output} (h : o.semicolonDue = false) (kept : Bool) :
    o.settled kept = o := by
  obtain ⟨written, due, noIn⟩ := o
  subst h
  cases kept <;> rfl

@[simp] theorem write_flush (o : Output) (text : List Char) (h : text ≠ []) :
    o.flush.write text = o.write text := by
  obtain ⟨written, due, noIn⟩ := o
  cases text with
  | nil => contradiction
  | cons => cases due <;> rfl

theorem semicolonDue_write_of_ne_nil (o : Output) {text : List Char} (h : text ≠ []) :
    (o.write text).semicolonDue = false := by
  rw [← o.write_flush text h]
  refine semicolonDue_write ?_ text
  obtain ⟨written, due, noIn⟩ := o
  cases due <;> rfl

theorem semicolonDue_writeAll_of_text (o : Output) {p : Piece} (h : p.text ≠ [])
    (ps : List Piece) : (o.writeAll (p :: ps)).semicolonDue = false :=
  semicolonDue_writeAll (o.semicolonDue_write_of_ne_nil h) ps

theorem writeAll_flush (o : Output) {p : Piece} (h : p.text ≠ []) (ps : List Piece) :
    o.flush.writeAll (p :: ps) = o.writeAll (p :: ps) := by
  rw [writeAll_cons, write_flush o p.text h, writeAll_cons]

/-- No space is put before a sign that runs together with nothing. -/
theorem write_sign {o : Output} (h : o.semicolonDue = false) {c : Char}
    (hc : ∀ last, runsTogether last c = false) :
    o.write [c] = { o with written := c :: o.written } := by
  have hspace : (o.written.head?.any fun last => runsTogether last c) = false := by
    cases o.written <;> simp [hc]
  simp [write, flush, h, hspace]

theorem write_concat (o : Output) {text : List Char} (h : text ≠ []) {c : Char}
    (hc : ∀ last, runsTogether last c = false) : o.write (text ++ [c]) = (o.write text).write [c] := by
  rw [write_sign (o.semicolonDue_write_of_ne_nil h) hc]
  obtain ⟨first, rest, rfl⟩ := List.exists_cons_of_ne_nil h
  simp [write, List.reverseAux_eq]

end Output

/-- A computation writes a statement. The semicolon at its end may still be held back. -/
def WritesStatement (options : PrintOptions) (w : Writing Unit) (part : Bool → List Piece) : Prop :=
  ∀ o : Output, o.noIn = false → ∃ o', w.run options o = ((), o') ∧ o'.noIn = false ∧
    ∀ kept, o'.settled kept = o.writeAll (part kept)

variable {options : PrintOptions} {w w' : Writing Unit} {part part' : Bool → List Piece}

theorem run_bind {o o' : Output} (h : w.run options o = ((), o')) :
    (do w; w' : Writing Unit).run options o = w'.run options o' := by
  show (w.run options o >>= fun x => w'.run options x.2) = _
  rw [h]
  rfl

namespace Writes

theorem statement (h : Writes options false w ps) (hps : Items ps) (hne : ps ≠ []) :
    WritesStatement options w fun _ => ps := by
  intro o ho
  obtain ⟨p, rest, rfl, htext⟩ := hps.exists_text hne
  refine ⟨_, h o ho, (o.noIn_writeAll _).trans ho, fun kept => ?_⟩
  exact Output.settled_of_not_due (o.semicolonDue_writeAll_of_text htext rest) kept

theorem endStatement (h : Writes options false w ps) (hps : Items ps) (hne : ps ≠ []) :
    WritesStatement options (do w; endStatement) fun kept => ps ++ semicolonPieces kept := by
  intro o ho
  obtain ⟨p, rest, rfl, htext⟩ := hps.exists_text hne
  have hdue := o.semicolonDue_writeAll_of_text htext rest
  refine ⟨{ o.writeAll (p :: rest) with semicolonDue := true }, run_bind (h o ho),
    (o.noIn_writeAll _).trans ho, fun kept => ?_⟩
  rw [Output.writeAll_append]
  generalize o.writeAll (p :: rest) = o' at hdue
  obtain ⟨written, due, noIn⟩ := o'
  subst hdue
  cases kept with
  | true =>
      exact (Output.write_sign (o := ⟨written, false, noIn⟩) rfl (c := ';')
        (by simp [runsTogether, isWordChar])).symm
  | false => rfl

theorem andThen (h : Writes options false w ps) (h' : WritesStatement options w' part) :
    WritesStatement options (do w; w') fun kept => ps ++ part kept := by
  intro o ho
  obtain ⟨o', hrun, hnoIn, hsettled⟩ := h' (o.writeAll ps) ((o.noIn_writeAll ps).trans ho)
  refine ⟨o', (run_bind (h o ho)).trans hrun, hnoIn, fun kept => ?_⟩
  rw [hsettled, Output.writeAll_append]

/-- A word and the parenthesis behind it, written at once. -/
theorem wordParen {text word : String} (htext : text.toList = word.toList ++ ['('])
    (hword : isName word) :
    Writes options false (Printer.write text) [.word word, .sign .openParen] := by
  intro o _
  have hne : word.toList ≠ [] := Piece.text_ne_nil (p := .word word) hword
  show ((), o.write text.toList) = ((), (o.write word.toList).write ['('])
  rw [← o.write_concat hne (by simp [runsTogether, isWordChar]), htext]

theorem forbidIn (h : Writes options true w ps) : Writes options false (forbidIn w) ps := by
  intro o ho
  have hw := h { o with noIn := true } rfl
  show ((), { (w.run options { o with noIn := true }).2 with noIn := false }) = _
  rw [hw, Output.writeAll_setNoIn, ← ho, ← o.noIn_writeAll ps]

end Writes

namespace WritesStatement

theorem bind (h : WritesStatement options w part) (h' : WritesStatement options w' part')
    (hpassage : Passage part') :
    WritesStatement options (do w; w') fun kept => part true ++ part' kept := by
  intro o ho
  obtain ⟨o₁, hrun, hnoIn, hsettled⟩ := h o ho
  obtain ⟨o₂, hrun', hnoIn', hsettled'⟩ := h' o₁ hnoIn
  refine ⟨o₂, (run_bind hrun).trans hrun', hnoIn', fun kept => ?_⟩
  obtain ⟨p, rest, heq, htext⟩ := (hpassage.items kept).exists_text (hpassage.ne_nil kept)
  rw [hsettled', Output.writeAll_append, ← hsettled true, heq]
  exact (o₁.writeAll_flush htext rest).symm

/-- A closing brace makes the semicolon before it needless. -/
theorem closeBrace (h : WritesStatement options w part) :
    Writes options false (do w; closeBrace)
      (part options.formatting.semicolon ++ [.sign .closeBrace]) := by
  intro o ho
  obtain ⟨o', hrun, -, hsettled⟩ := h o ho
  rw [run_bind hrun, Output.writeAll_append, ← hsettled]
  have hbrace : Printer.closeBrace.run options o' =
      (if options.formatting.semicolon then write "\x7d" else do
        modify fun o => { o with semicolonDue := false }
        write "\x7d" : Writing Unit).run options o' := rfl
  rw [hbrace]
  cases options.formatting.semicolon with
  | true => exact congrArg (Prod.mk ()) (o'.write_flush ['\x7d'] nofun).symm
  | false => rfl

/-- Statements behind others. -/
theorem inOrder {print : Site → Writing Unit} (h : WritesStatement options w part) (site : Site)
    {ts : List Tree} {parts : List (Bool → List Piece)}
    (hts : List.Forall₂ (fun t part => WritesStatement options (print (site.below t)) part) ts parts)
    (hpassages : ∀ part ∈ parts, Passage part) :
    WritesStatement options (do w; inOrder print (ts.map site.below))
      fun kept => part (!parts.isEmpty || kept) ++ inSequence kept parts := by
  induction hts generalizing w part with
  | nil =>
      intro o ho
      obtain ⟨o', hrun, hnoIn, hsettled⟩ := h o ho
      refine ⟨o', (run_bind hrun).trans rfl, hnoIn, fun kept => ?_⟩
      show o'.settled kept = o.writeAll (part kept ++ [])
      rw [List.append_nil]
      exact hsettled kept
  | @cons t next ts rest ht _ ih =>
      have hnext := h.bind ht (hpassages next List.mem_cons_self)
      have hrest := ih hnext fun other hother => hpassages other (List.mem_cons_of_mem next hother)
      have hassoc : (do w; Printer.inOrder print ((t :: ts).map site.below) : Writing Unit) =
          (do (do w; print (site.below t)); Printer.inOrder print (ts.map site.below)) := rfl
      rw [hassoc]
      simpa [inSequence] using hrest

end WritesStatement

end Printer

end ScriptMin
