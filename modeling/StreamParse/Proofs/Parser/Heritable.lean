import StreamParse.Proofs.Cursor.Replay
import StreamParse.Proofs.Parser.Composed

/-!
# Properties that parsers inherit

All that a parser knows of its input it has from reads, traversals and spans, and it deals with
their results one after the other.  So a property of runs that these have, and that goes over to
one run after the other, is a property of all parsers of the library, of everything built from
them and of the parsers that grammars describe.

Parsers may raise faults besides.  None of these is the fault of a source.
-/

namespace StreamParse

/-- The fault is not that of a source. -/
def Fault.Sourceless (fault : Fault) : Prop :=
  ∀ conduct, fault ≠ .overclaimed conduct

/-- A property of runs that reads, traversals and spans have, and that goes over to what is made of
them. -/
structure Store.Heritable (P : {ρ : Type} → Run ρ → Prop) : Prop where
  pure : ∀ {ρ : Type} (value : ρ), P (pure value : Run ρ)
  fault : ∀ {ρ : Type} {fault : Fault}, fault.Sourceless → P (.fault fault : Run ρ)
  bind : ∀ {ρ σ : Type} {x : Run ρ} {f : ρ → Run σ}, P x → (∀ value, P (f value)) → P (x >>= f)
  read : ∀ {α : Type} {r : Reading α}, r.Steady → ∀ cursor, P (Cursor.read r cursor)
  traverse : ∀ {α β : Type} {r : Reading α}, r.Steady →
    ∀ (rule : TraversalRule α β) (gathered : β) (cursor : Cursor),
      P ⟨Cursor.traverse r rule gathered cursor⟩
  bytesUntil : ∀ start stop : Cursor, P (start.bytesUntil stop)

namespace Store.Heritable

open StreamParse.Parser

variable {P : {ρ : Type} → Run ρ → Prop}

section

variable (h : Heritable P)
include h

theorem textUntil (start stop : Cursor) : P (start.textUntil stop) := by
  refine h.bind (h.bytesUntil start stop) ?_
  intro bytes
  rcases Utf8.decode bytes.toList with ⟨text, rest⟩
  dsimp only
  split
  · apply h.pure
  · have hseek (offset : Nat) : P (start.seek offset) :=
      h.bind (h.traverse Reading.steady_runes _ _ start) fun _ => h.pure _
    exact h.bind (hseek _) fun _ => h.pure _

/-! ## Parsers that read units themselves -/

section

variable {α : Type} {r : Reading α} (hr : r.Steady)
include hr

theorem readUnits [DecidableEq α] (expected : List α) (cursor : Cursor) :
    P (readUnits r expected cursor) := by
  induction expected generalizing cursor with
  | nil => apply h.pure
  | cons unit rest ih =>
      refine h.bind (h.read hr cursor) ?_
      rintro (error | ⟨found, next⟩)
      · apply h.pure
      · dsimp only
        split
        · exact ih next
        · apply h.pure

theorem exactly [DecidableEq α] (expected : List α) (entry : Cursor) :
    P (exactly r expected entry) := by
  refine h.bind (h.readUnits hr expected entry) ?_
  rintro (error | cursor)
  · apply h.pure
  · apply h.pure

theorem satisfying (accepts : α → Bool) (entry : Cursor) : P (satisfying r accepts entry) := by
  refine h.bind (h.read hr entry) ?_
  rintro (error | ⟨unit, next⟩)
  · apply h.pure
  · dsimp only
    split
    · apply h.pure
    · apply h.pure

end

theorem endOfInput (entry : Cursor) : P (endOfInput entry) := by
  refine h.bind (h.read Reading.steady_bytes entry) ?_
  intro result
  split
  · apply h.pure
  · apply h.pure
  · apply h.pure

theorem numeral (type : IntType) (negative : Bool) (entry start : Cursor) :
    P (numeral type negative entry start) := by
  refine h.bind (h.traverse Reading.steady_bytes _ _ start) ?_
  intro digits
  split
  · apply h.pure
  · apply h.pure

theorem signedAsciiDigits (type : IntType) (entry : Cursor) :
    P (signedAsciiDigits type entry) := by
  refine h.bind (h.read Reading.steady_bytes entry) ?_
  rintro (error | ⟨b, next⟩)
  · apply h.numeral
  · dsimp only
    split
    · apply h.numeral
    · apply h.numeral

/-! ## Combinations -/

section

variable {α β γ : Type} {p q : Parser α} (hp : ∀ entry, P (p entry))
include hp

theorem andThen {next : α → Parser β} (hnext : ∀ a entry, P (next a entry))
    (entry : Cursor) : P (Parser.bind p next entry) := by
  refine h.bind (hp entry) ?_
  rintro (failure | ⟨value, cursor⟩)
  · apply h.pure
  · exact h.bind (hnext value cursor) fun _ => h.pure _

theorem sequence {q : Parser β} (combine : α → β → Except Cause γ) (hq : ∀ entry, P (q entry))
    (entry : Cursor) : P (sequence p q combine entry) := by
  refine h.bind (hp entry) ?_
  rintro (failure | ⟨a, middle⟩)
  · apply h.pure
  · refine h.bind (hq middle) ?_
    rintro (failure | ⟨b, cursor⟩)
    · apply h.pure
    · dsimp only
      split
      · apply h.pure
      · apply h.pure

theorem map (f : α → β) (entry : Cursor) : P (Parser.map f p entry) := by
  refine h.bind (hp entry) ?_
  rintro (failure | ⟨value, cursor⟩)
  · apply h.pure
  · apply h.pure

theorem or (hq : ∀ entry, P (q entry)) (entry : Cursor) : P (Parser.or p q entry) := by
  refine h.bind (hp entry) ?_
  rintro (failure | success)
  · dsimp only
    split
    · exact h.bind (hq entry) fun _ => h.pure _
    · apply h.pure
  · apply h.pure

theorem optional (entry : Cursor) : P (Parser.optional p entry) := by
  refine h.bind (hp entry) ?_
  rintro (failure | ⟨value, cursor⟩)
  · dsimp only
    split
    · apply h.pure
    · apply h.pure
  · apply h.pure

theorem collect (entry : Cursor) (values : Array α) (cursor : Cursor) :
    P (collect p entry values cursor) := by
  induction hleft : offsetLimit - cursor.position.offset using Nat.strongRecOn
    generalizing values cursor with
  | ind left ih =>
      rw [Parser.collect]
      refine h.bind (hp cursor) ?_
      rintro (failure | ⟨value, next⟩)
      · dsimp only
        split
        · apply h.pure
        · apply h.pure
      · dsimp only
        split
        · apply h.pure
        · split
          · exact h.fault (by rintro _ ⟨⟩)
          · exact ih (offsetLimit - next.position.offset) (by omega) _ next rfl

theorem captureText (entry : Cursor) : P (captureText p entry) := by
  refine h.bind (hp entry) ?_
  rintro (failure | ⟨value, cursor⟩)
  · apply h.pure
  · refine h.bind (h.textUntil entry cursor) ?_
    rintro (error | text)
    · apply h.pure
    · apply h.pure

theorem captureBytes (entry : Cursor) : P (captureBytes p entry) := by
  refine h.bind (hp entry) ?_
  rintro (failure | ⟨value, cursor⟩)
  · apply h.pure
  · exact h.bind (h.bytesUntil entry cursor) fun _ => h.pure _

theorem capturePositions (entry : Cursor) : P (capturePositions p entry) := by
  refine h.bind (hp entry) ?_
  rintro (failure | ⟨value, cursor⟩)
  · apply h.pure
  · apply h.pure

end

/-- What is built from parsers of the library and from parsers that have the property has it. -/
theorem composed {Custom : {α : Type} → Parser α → Prop}
    (hcustom : ∀ {α : Type} {q : Parser α}, Custom q → ∀ entry, P (q entry)) {α : Type}
    {p : Parser α} (hp : Composed Custom p) (entry : Cursor) : P (p entry) := by
  induction hp generalizing entry with
  | custom hq => exact hcustom hq entry
  | literal text => exact h.exactly Reading.steady_runes text.toList entry
  | literalBytes bytes => exact h.exactly Reading.steady_bytes bytes entry
  | satisfy accepts => exact h.satisfying Reading.steady_runes accepts entry
  | satisfyByte accepts => exact h.satisfying Reading.steady_bytes accepts entry
  | endOfInput => exact h.endOfInput entry
  | asciiDigits type => exact h.numeral type false entry entry
  | signedAsciiDigits type => exact h.signedAsciiDigits type entry
  | newline =>
      exact h.or (h.exactly Reading.steady_runes _) (h.exactly Reading.steady_runes _) entry
  | bind _ _ ihp ihnext => exact h.andThen ihp ihnext entry
  | sequence combine _ _ ihp ihq => exact h.sequence ihp combine ihq entry
  | map f _ ih => exact h.map ih f entry
  | or _ _ ihp ihq => exact h.or ihp ihq entry
  | optional _ ih => exact h.optional ih entry
  | many _ ih => exact h.collect ih entry #[] entry
  | captureText _ ih => exact h.captureText ih entry
  | captureBytes _ ih => exact h.captureBytes ih entry
  | capturePositions _ ih => exact h.capturePositions ih entry

/-! ## Grammars -/

theorem times {p : Parser Value} (hp : ∀ entry, P (p entry)) (count : Nat) (entry : Cursor) :
    P (times p count entry) := by
  induction count generalizing entry with
  | zero => apply h.pure
  | succ count ih => exact h.sequence ih _ hp entry

theorem again (value : Value) (entry : Cursor) : P (again value entry) := by
  cases value with
  | text text => exact h.map (h.exactly Reading.steady_runes _) _ entry
  | number code => exact h.map (h.exactly Reading.steady_runes _) _ entry
  | _ =>
      simp only [Parser.again]
      generalize Value.toBytes? _ = bytes
      cases bytes with
      | some bytes => exact h.map (h.exactly Reading.steady_bytes _) _ entry
      | none => exact h.fault (by rintro _ ⟨⟩)

end

section

variable {scope : Scope}

mutual

theorem expr (h : Heritable P) (hrules : ∀ name entry, P (scope.rule name entry)) :
    (expr : Expr) → (entry : Cursor) → P (expr.parser scope entry)
  | .literal text => h.map (h.exactly Reading.steady_runes text.toList) _
  | .literalBytes bytes => h.map (h.exactly Reading.steady_bytes bytes) _
  | .satisfy _ => h.map (h.satisfying Reading.steady_runes _) _
  | .satisfyByte _ => h.map (h.satisfying Reading.steady_bytes _) _
  | .bind first following => h.andThen (h.expr hrules first) (h.next hrules following)
  | .sequence first second _ => h.sequence (h.expr hrules first) _ (h.expr hrules second)
  | .map parser _ => h.map (h.expr hrules parser) _
  | .or first second => h.or (h.expr hrules first) (h.expr hrules second)
  | .optional parser => h.map (h.optional (h.expr hrules parser)) _
  | .many parser =>
    h.map (fun entry => h.collect (h.expr hrules parser) entry #[] entry) _
  | .endOfInput => h.map h.endOfInput _
  | .newline =>
    h.map (h.or (h.exactly Reading.steady_runes _) (h.exactly Reading.steady_runes _)) _
  | .captureText parser => h.map (h.captureText (h.expr hrules parser)) _
  | .captureBytes parser => h.map (h.captureBytes (h.expr hrules parser)) _
  | .capturePositions parser => h.map (h.capturePositions (h.expr hrules parser)) _
  | .digits type => h.map (fun entry => h.numeral type false entry entry) _
  | .signedDigits type => h.map (h.signedAsciiDigits type) _
  | .failAfter _ _ => fun entry =>
    h.bind (h.traverse Reading.steady_bytes _ _ entry) fun _ => h.pure _
  | .goto register => fun entry => by
    rw [Expr.parser]
    cases scope.register register with
    | some cursor => exact h.map (fun _ => h.pure _) _ entry
    | none => exact h.fault (by rintro _ ⟨⟩)
  | .rule name => hrules name

theorem next (h : Heritable P) (hrules : ∀ name entry, P (scope.rule name entry)) :
    (next : Next) → (value : Value) → (entry : Cursor) → P (next.parser scope value entry)
  | .const parser, _ => h.expr hrules parser
  | .pair parser, _ => h.map (h.expr hrules parser) _
  | .again, value => h.again value
  | .switch cases, value => h.choice hrules cases value
  | .times parser, value => fun entry => by
    cases value with
    | text count => exact h.times (h.expr hrules parser) _ entry
    | _ => exact h.fault (by rintro _ ⟨⟩)

theorem choice (h : Heritable P) (hrules : ∀ name entry, P (scope.rule name entry)) :
    (cases : Cases) → (value : Value) → (entry : Cursor) → P (cases.parser scope value entry)
  | .case expected parser rest, value => fun entry => by
    rw [Cases.parser]
    split
    · exact h.expr hrules parser entry
    · exact h.choice hrules rest value entry
  | .otherwise parser, _ => h.expr hrules parser

end

end

/-- The parsers of grammars have the property. -/
theorem grammar (h : Heritable P) (grammar : Grammar) (register : String → Option Cursor)
    (described : Expr) (entry : Cursor) : P (grammar.parser register described entry) := by
  have hrules : ∀ depth name entry, P (grammar.ruleParser register depth name entry) := by
    intro depth
    induction depth with
    | zero => exact fun _ _ => h.fault (by rintro _ ⟨⟩)
    | succ depth ih =>
        intro name entry
        rw [Grammar.ruleParser]
        split
        · exact h.fault (by rintro _ ⟨⟩)
        · exact h.expr ih _ entry
  exact h.expr (hrules Grammar.maxDepth) described entry

end Store.Heritable
end StreamParse
