import ScriptMin.Printer.Options
import ScriptMin.Proofs.Token.Scanning
import ScriptMin.Tree.Basic

/-!
Ordinary expressions: trees of operators, member access, calls and literals, as the grammar
builds them but with any spans and without a single pair of parentheses. Whether such a tree
keeps its shape when it is written and read again is up to the printer alone. The expressions
of statements may assign to patterns, too.
-/

namespace ScriptMin

open Text

def Kind.isCompound : Kind → Bool
  | .bitOr | .bitXor | .bitAnd | .shiftLeft | .shiftRight | .shiftRightZero | .plus | .minus
  | .times | .divide | .modulo => true
  | _ => false

namespace Tree

mutual
/-- A tree without its spans and without the marks of parentheses. -/
def plain : Tree → Tree
  | .node head children =>
    .node { head with span := default, flags := { head.flags with parenthesized := false } }
      (plainList children)

def plainList : List Tree → List Tree
  | [] => []
  | t :: rest => plain t :: plainList rest
end

theorem plainList_eq_map (ts : List Tree) : plainList ts = ts.map plain := by
  induction ts with
  | nil => rfl
  | cons t ts ih => rw [plainList, ih, List.map_cons]

@[simp] theorem plain_node (head : Head) (children : List Tree) :
    plain (.node head children) =
      .node { head with span := default, flags := { head.flags with parenthesized := false } }
        (children.map plain) := by
  rw [plain, plainList_eq_map]

@[simp] theorem plain_parenthesize (t : Tree) : t.parenthesize.plain = t.plain := by
  cases t with
  | node head children => simp [parenthesize, mapHead]

/-- Whether a tree is something that can be assigned to and that is no pattern. -/
def isReference (t : Tree) : Bool := t.kind matches .identifier | .dot | .index | .call

/-- A key of an object literal. -/
inductive IsKey (options : PrintOptions) : Tree → Prop where
  | name {name : String} {span : Span} : isName name → IsKey options (identifier name span)
  | string {text : String} {span : Span} :
      (∀ c ∈ text.toList, c.toNat ≤ 0xffff ∨ c.toNat < options.asciiThreshold) →
      IsKey options (textLeaf .string text span)
  | number {value : Number} {span : Span} :
      value.isFinite → value.negative = false → value.ReadsBack →
      IsKey options (number value span)

structure Field where
  key : Tree
  value : Tree
  span : Span

def Field.tree (f : Field) : Tree := ofList .propertyInit f.span [f.key, f.value]

def hole (span : Span) : Tree := leaf .hole span

/-- An expression without marked parentheses that assigns to allowed targets only. Names are names
of the language, numbers are finite, have no sign and are read back from their decimal text, and
characters beyond U+FFFF occur in strings only where they are written as themselves. -/
inductive Unmarked (allows : Option Kind → Tree → Bool) (options : PrintOptions) : Tree → Prop where
  | identifier {name : String} {span : Span} :
      isName name → isReserved name = false → Unmarked allows options (identifier name span)
  | number {value : Number} {span : Span} :
      value.isFinite → value.negative = false → value.ReadsBack →
      Unmarked allows options (number value span)
  | string {text : String} {span : Span} :
      (∀ c ∈ text.toList, c.toNat ≤ 0xffff ∨ c.toNat < options.asciiThreshold) →
      Unmarked allows options (textLeaf .string text span)
  | constant {kind : Kind} {span : Span} :
      kind ∈ [.trueLit, .falseLit, .nullLit, .thisRef] → Unmarked allows options (leaf kind span)
  | binary {kind : Kind} {span : Span} {left right : Tree} :
      kind.isBinary → Unmarked allows options left → Unmarked allows options right →
      Unmarked allows options (ofList kind span [left, right])
  | unary {kind : Kind} {span : Span} {operand : Tree} :
      kind.isUnary → Unmarked allows options operand →
      Unmarked allows options (ofList kind span [operand])
  | update {kind : Kind} {span : Span} {trailing : Bool} {operand : Tree} :
      kind = .increment ∨ kind = .decrement → operand.isReference →
      Unmarked allows options operand →
      Unmarked allows options (node { kind, span, flags := { trailing } } [operand])
  | assign {op : Option Kind} {span : Span} {target value : Tree} :
      (∀ kind ∈ op, kind.isCompound) → allows op target → Unmarked allows options target →
      Unmarked allows options value →
      Unmarked allows options (node { kind := .assign, span, assignOp := op } [target, value])
  | conditional {span : Span} {condition thenPart elsePart : Tree} :
      Unmarked allows options condition → Unmarked allows options thenPart →
      Unmarked allows options elsePart →
      Unmarked allows options (ofList .conditional span [condition, thenPart, elsePart])
  | comma {span : Span} {parts : List Tree} :
      2 ≤ parts.length → (∀ t ∈ parts, Unmarked allows options t) →
      Unmarked allows options (ofList .comma span parts)
  | dot {span nameSpan : Span} {object : Tree} {name : String} :
      Unmarked allows options object → isName name →
      Unmarked allows options (ofList .dot span [object, .identifier name nameSpan])
  | index {span : Span} {object position : Tree} :
      Unmarked allows options object → Unmarked allows options position →
      Unmarked allows options (ofList .index span [object, position])
  | call {span listSpan : Span} {callee : Tree} {args : List Tree} :
      Unmarked allows options callee → (∀ t ∈ args, Unmarked allows options t) →
      Unmarked allows options (ofList .call span [callee, ofList .list listSpan args])
  | newBare {span : Span} {callee : Tree} :
      Unmarked allows options callee → Unmarked allows options (ofList .newBare span [callee])
  | newArgs {span listSpan : Span} {callee : Tree} {args : List Tree} :
      Unmarked allows options callee → (∀ t ∈ args, Unmarked allows options t) →
      Unmarked allows options (ofList .newArgs span [callee, ofList .list listSpan args])
  | arrayInit {span : Span} {elements : List Tree} :
      (∀ t ∈ elements, t.kind ≠ .hole → Unmarked allows options t) →
      (∀ t ∈ elements, t.kind = .hole → ∃ span, t = hole span) →
      Unmarked allows options (ofList .arrayInit span elements)
  | objectInit {span : Span} {fields : List Field} :
      (∀ f ∈ fields, f.key.IsKey options) → (∀ f ∈ fields, Unmarked allows options f.value) →
      Unmarked allows options (ofList .objectInit span (fields.map Field.tree))

def isPattern (t : Tree) : Bool := t.kind matches .arrayInit | .objectInit

/-- Whether a tree can be assigned to. A pattern can be so by a plain assignment only. -/
def isTarget (op : Option Kind) (t : Tree) : Bool := t.isReference || (op.isNone && t.isPattern)

/-- An expression without marked parentheses that assigns to no pattern. -/
abbrev Ordinary (options : PrintOptions) : Tree → Prop :=
  Unmarked (fun _ t => t.isReference) options

/-- An expression without marked parentheses that can assign to patterns as well. -/
abbrev IsExpression (options : PrintOptions) : Tree → Prop :=
  Unmarked (fun op t => t.isTarget op) options

variable {allows allows' : Option Kind → Tree → Bool} {options : PrintOptions} {t : Tree}

theorem Unmarked.mono (hallows : ∀ op t, allows op t → allows' op t)
    (h : t.Unmarked allows options) : t.Unmarked allows' options := by
  induction h with
  | identifier hname hreserved => exact .identifier hname hreserved
  | number hfinite hsign hback => exact .number hfinite hsign hback
  | string htext => exact .string htext
  | constant hmem => exact .constant hmem
  | binary hkind _ _ hleft hright => exact .binary hkind hleft hright
  | unary hkind _ h => exact .unary hkind h
  | update hkind hreference _ h => exact .update hkind hreference h
  | assign hop hallowed _ _ htarget hvalue =>
      exact .assign hop (hallows _ _ hallowed) htarget hvalue
  | conditional _ _ _ hcondition hthen helse => exact .conditional hcondition hthen helse
  | comma hlength _ h => exact .comma hlength h
  | dot _ hname h => exact .dot h hname
  | index _ _ hobject hposition => exact .index hobject hposition
  | call _ _ hcallee hargs => exact .call hcallee hargs
  | newBare _ h => exact .newBare h
  | newArgs _ _ h hargs => exact .newArgs h hargs
  | arrayInit _ hholes h => exact .arrayInit h hholes
  | objectInit hkeys _ h => exact .objectInit hkeys h

theorem Ordinary.isExpression (h : t.Ordinary options) : t.IsExpression options :=
  h.mono fun op t hreference => by simp [isTarget, hreference]

theorem Unmarked.flags_parenthesized (h : t.Unmarked allows options) :
    t.flags.parenthesized = false := by
  cases h <;> rfl

end Tree

end ScriptMin
