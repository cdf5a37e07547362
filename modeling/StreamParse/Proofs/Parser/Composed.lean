import StreamParse.Proofs.Parser.Reach
import StreamParse.Proofs.Parser.Refinement

/-!
# Composed parsers

The parsers that can be built from those of the library, with any predicates and functions, all
refine orderly references.  With other parsers among them they are still made of reads, if these
are, and add no faults to theirs.
-/

namespace StreamParse.Parser

/-- The parsers built from those of this library and from parsers that are `Custom`. -/
inductive Composed (Custom : {α : Type} → Parser α → Prop) : {α : Type} → Parser α → Prop
  | custom {α : Type} {p : Parser α} : Custom p → Composed Custom p
  | literal (text : String) : Composed Custom (literal text)
  | literalBytes (bytes : List UInt8) : Composed Custom (literalBytes bytes)
  | satisfy (accepts : Char → Bool) : Composed Custom (satisfy accepts)
  | satisfyByte (accepts : UInt8 → Bool) : Composed Custom (satisfyByte accepts)
  | endOfInput : Composed Custom endOfInput
  | asciiDigits (type : IntType) : Composed Custom (asciiDigits type)
  | signedAsciiDigits (type : IntType) : Composed Custom (signedAsciiDigits type)
  | newline : Composed Custom newline
  | bind {α β : Type} {p : Parser α} {next : α → Parser β} :
    Composed Custom p → (∀ a, Composed Custom (next a)) → Composed Custom (bind p next)
  | sequence {α β γ : Type} {p : Parser α} {q : Parser β} (combine : α → β → Except Cause γ) :
    Composed Custom p → Composed Custom q → Composed Custom (sequence p q combine)
  | map {α β : Type} {p : Parser α} (f : α → β) :
    Composed Custom p → Composed Custom (map f p)
  | or {α : Type} {p q : Parser α} :
    Composed Custom p → Composed Custom q → Composed Custom (or p q)
  | optional {α : Type} {p : Parser α} :
    Composed Custom p → Composed Custom (optional p)
  | many {α : Type} {p : Parser α} : Composed Custom p → Composed Custom (many p)
  | captureText {α : Type} {p : Parser α} :
    Composed Custom p → Composed Custom (captureText p)
  | captureBytes {α : Type} {p : Parser α} :
    Composed Custom p → Composed Custom (captureBytes p)
  | capturePositions {α : Type} {p : Parser α} :
    Composed Custom p → Composed Custom (capturePositions p)

/-- The parsers built from those of this library alone. -/
abbrev Closed {α : Type} (p : Parser α) : Prop := Composed (fun _ => False) p

variable {α : Type}

theorem Composed.mono
    {Custom Custom' : {α : Type} → Parser α → Prop}
    (himp : ∀ {α : Type} {q : Parser α}, Custom q → Custom' q) {p : Parser α}
    (h : Composed Custom p) : Composed Custom' p := by
  induction h with
  | custom hcustom => exact .custom (himp hcustom)
  | literal text => exact .literal text
  | literalBytes bytes => exact .literalBytes bytes
  | satisfy accepts => exact .satisfy accepts
  | satisfyByte accepts => exact .satisfyByte accepts
  | endOfInput => exact .endOfInput
  | asciiDigits type => exact .asciiDigits type
  | signedAsciiDigits type => exact .signedAsciiDigits type
  | newline => exact .newline
  | bind _ _ ihp ihnext => exact .bind ihp ihnext
  | sequence combine _ _ ihp ihq => exact .sequence combine ihp ihq
  | map f _ ih => exact .map f ih
  | or _ _ ihp ihq => exact .or ihp ihq
  | optional _ ih => exact .optional ih
  | many _ ih => exact .many ih
  | captureText _ ih => exact .captureText ih
  | captureBytes _ ih => exact .captureBytes ih
  | capturePositions _ ih => exact .capturePositions ih

theorem newline_refines :
    newline.Refines (.or (.exactly .runes "\n".toList) (.exactly .runes "\r\n".toList)) :=
  or_refines (exactly_refines _ _) (exactly_refines _ _)

/-- Every parser built from those of the library refines an orderly reference. -/
theorem Closed.exists_reference {p : Parser α} (h : Closed p) :
    ∃ ref : Reference α, ref.Orderly ∧ p.Refines ref := by
  induction h with
  | custom hcustom => exact hcustom.elim
  | literal text => exact ⟨_, Reference.exactly_orderly .runes text.toList, exactly_refines _ _⟩
  | literalBytes bytes => exact ⟨_, Reference.exactly_orderly .bytes bytes, exactly_refines _ _⟩
  | satisfy accepts =>
      exact ⟨_, Reference.satisfying_orderly .runes accepts, satisfying_refines _ _⟩
  | satisfyByte accepts =>
      exact ⟨_, Reference.satisfying_orderly .bytes accepts, satisfying_refines _ _⟩
  | endOfInput => exact ⟨_, Reference.endOfInput_orderly, endOfInput_refines⟩
  | asciiDigits type => exact ⟨_, Reference.digits_orderly type, asciiDigits_refines type⟩
  | signedAsciiDigits type =>
      exact ⟨_, Reference.signedDigits_orderly type, signedAsciiDigits_refines type⟩
  | newline =>
      exact ⟨_, Reference.or_orderly (Reference.exactly_orderly _ _)
        (Reference.exactly_orderly _ _), newline_refines⟩
  | bind _ _ ihp ihnext =>
      obtain ⟨ref, horderly, hrefines⟩ := ihp
      choose refs hrefs using ihnext
      exact ⟨ref.bind refs, Reference.bind_orderly horderly fun a => (hrefs a).1,
        bind_refines hrefines fun a => (hrefs a).2⟩
  | sequence combine _ _ ihp ihq =>
      obtain ⟨first, hfirst, hrefines⟩ := ihp
      obtain ⟨second, hsecond, hrefines'⟩ := ihq
      exact ⟨_, Reference.sequence_orderly combine hfirst hsecond,
        sequence_refines combine hrefines hrefines'⟩
  | map f _ ih =>
      obtain ⟨ref, horderly, hrefines⟩ := ih
      exact ⟨_, Reference.map_orderly f horderly, map_refines f hrefines⟩
  | or _ _ ihp ihq =>
      obtain ⟨first, hfirst, hrefines⟩ := ihp
      obtain ⟨second, hsecond, hrefines'⟩ := ihq
      exact ⟨_, Reference.or_orderly hfirst hsecond, or_refines hrefines hrefines'⟩
  | optional _ ih =>
      obtain ⟨ref, horderly, hrefines⟩ := ih
      exact ⟨_, Reference.optional_orderly horderly, optional_refines hrefines⟩
  | many _ ih =>
      obtain ⟨ref, horderly, hrefines⟩ := ih
      exact ⟨_, Reference.collect_orderly horderly #[], many_refines hrefines⟩
  | captureText _ ih =>
      obtain ⟨ref, horderly, hrefines⟩ := ih
      exact ⟨_, Reference.capture_orderly horderly Reference.textFrom_orderly,
        captureText_refines hrefines horderly⟩
  | captureBytes _ ih =>
      obtain ⟨ref, horderly, hrefines⟩ := ih
      exact ⟨_, Reference.capture_orderly horderly Reference.bytesFrom_orderly,
        captureBytes_refines hrefines horderly⟩
  | capturePositions _ ih =>
      obtain ⟨ref, horderly, hrefines⟩ := ih
      exact ⟨_, Reference.capture_orderly horderly Reference.positionsFrom_orderly,
        capturePositions_refines hrefines⟩

/-- Everything built from parsers of the library and from parsers that behave behaves. -/
theorem Composed.behaves
    {base : Store} {excused : Fault → Prop} (hbase : base.Excuses excused) {p : Parser α}
    (h : Composed (Behaves base excused) p) : p.Behaves base excused := by
  induction h with
  | custom hbehaves => exact hbehaves
  | literal text => exact exactly_behaves hbase.runes text.toList
  | literalBytes bytes => exact exactly_behaves hbase.bytes bytes
  | satisfy accepts => exact satisfying_behaves hbase.runes accepts
  | satisfyByte accepts => exact satisfying_behaves hbase.bytes accepts
  | endOfInput => exact endOfInput_behaves hbase
  | asciiDigits type => exact asciiDigits_behaves hbase type
  | signedAsciiDigits type => exact signedAsciiDigits_behaves hbase type
  | newline => exact newline_behaves hbase
  | bind _ _ ihp ihnext => exact bind_behaves ihp ihnext
  | sequence combine _ _ ihp ihq => exact sequence_behaves combine ihp ihq
  | map f _ ih => exact map_behaves f ih
  | or _ _ ihp ihq => exact or_behaves ihp ihq
  | optional _ ih => exact optional_behaves ih
  | many _ ih => exact many_behaves hbase ih
  | captureText _ ih => exact captureText_behaves hbase ih
  | captureBytes _ ih => exact captureBytes_behaves hbase ih
  | capturePositions _ ih => exact capturePositions_behaves ih

end StreamParse.Parser
