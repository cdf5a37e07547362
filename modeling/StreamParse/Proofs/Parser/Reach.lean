import StreamParse.Grammar.Denotation
import StreamParse.Proofs.Reach

/-!
# Parsers are made of reads

Whatever a parser does to a store, it does by single reads from known cursors, and the cursor that
it gives is known.  This holds of the parsers of the library and of those that grammars describe,
also of those that jump to the cursor in a register or fail somewhere else.

A parser has no faults of its own either.  What may go wrong in it is what may go wrong in a read
or in a span between known cursors; the parsers of grammars may also come upon a name that stands
for nothing.
-/

namespace StreamParse

open Store

variable {α β γ : Type}

/-- A success with a known cursor, or a failure with one. -/
def Store.KnownIn (store : Store) : Parsed α → Prop
  | .error failure => store.Known failure.cursor
  | .ok (_, cursor) => store.Known cursor

/-- What may go wrong in the stores that are reached from `base` is excused: in reads from known
cursors, in spans between them, and for a known cursor whose offset is no address. -/
structure Store.Excuses (base : Store) (excused : Fault → Prop) : Prop where
  bytes : Reading.bytes.Behaves base excused
  runes : Reading.runes.Behaves base excused
  span : ∀ {store : Store} {start stop : Cursor}, base.KnownFrom store start → store.Known stop →
    ∀ fault, ((start.bytesUntil stop).run store).1 = .error fault → excused fault
  offset : ∀ {store : Store} {cursor : Cursor}, base.KnownFrom store cursor →
    Parser.offsetLimit ≤ cursor.position.offset → excused (.inconsistent .offsetOverflow)

theorem Store.excuses_true (base : Store) : base.Excuses fun _ => True :=
  ⟨Reading.usual_bytes.behaves base, Reading.usual_runes.behaves base,
    fun _ _ _ _ => trivial, fun _ _ => trivial⟩

namespace Store.Excuses

variable {base store : Store} {excused excused' : Fault → Prop}

theorem after (h : base.Excuses excused) (hreaches : base.Reaches store) :
    store.Excuses excused where
  bytes _ _ hknown := h.bytes ⟨hreaches.trans hknown.reaches, hknown.known⟩
  runes _ _ hknown := h.runes ⟨hreaches.trans hknown.reaches, hknown.known⟩
  span hstart hstop := h.span ⟨hreaches.trans hstart.reaches, hstart.known⟩ hstop
  offset hknown := h.offset ⟨hreaches.trans hknown.reaches, hknown.known⟩

theorem mono (h : base.Excuses excused) (himp : ∀ fault, excused fault → excused' fault) :
    base.Excuses excused' where
  bytes _ _ hknown := (h.bytes hknown).mono himp
  runes _ _ hknown := (h.runes hknown).mono himp
  span hstart hstop fault hfault := himp fault (h.span hstart hstop fault hfault)
  offset hknown hlimit := himp _ (h.offset hknown hlimit)

end Store.Excuses

namespace Parser

/-- The parser is made of reads in all stores that are reached from `base`, and the faults it ends
in are excused. -/
def Behaves (base : Store) (excused : Fault → Prop) (p : Parser α) : Prop :=
  ∀ ⦃store : Store⦄ ⦃entry : Cursor⦄, base.KnownFrom store entry →
    store.Proceeds excused KnownIn ((p entry).run store)

/-- The parser is made of reads in all stores that are reached from `base`, whatever faults it ends
in. -/
abbrev Reads (base : Store) (p : Parser α) : Prop := p.Behaves base fun _ => True

variable {base : Store} {excused : Fault → Prop}

theorem knownIn_rewind {store : Store} {entry : Cursor} (h : store.Known entry)
    {parsed : Parsed α} (hparsed : store.KnownIn parsed) :
    store.KnownIn (parsed.rewind entry) := by
  cases parsed with
  | error failure => exact h
  | ok success => exact hparsed

/-! ## Parsers that read units themselves -/

theorem succeed_behaves (value : α) : (succeed value).Behaves base excused :=
  fun _ _ h => .pure h.known

theorem fault_behaves {fault : Fault} (h : excused fault) :
    Behaves base excused (fun _ => .fault fault : Parser α) :=
  fun _ _ _ => .fault h

theorem proceeds_readUnits_known
    [DecidableEq α] {r : Reading α} (hr : r.Behaves base excused) (expected : List α)
    {store : Store} {cursor : Cursor} (h : base.KnownFrom store cursor) :
    store.Proceeds excused (fun store' result => ∀ next, result = .ok next → store'.Known next)
      ((readUnits r expected cursor).run store) := by
  induction expected generalizing store cursor with
  | nil =>
      refine .pure ?_
      intro next hnext
      cases hnext
      exact h.known
  | cons unit rest ih =>
      refine (hr h).bind ?_
      intro result store' hreaches hknown
      rcases result with error | ⟨found, next⟩
      · exact .pure fun _ hnext => by cases hnext
      · dsimp only
        split
        · exact ih ((h.after hreaches).goto hknown)
        · exact .pure fun _ hnext => by cases hnext

theorem exactly_behaves
    [DecidableEq α] {r : Reading α} (hr : r.Behaves base excused) (expected : List α) :
    (exactly r expected).Behaves base excused := by
  intro store entry h
  refine (proceeds_readUnits_known hr expected h).bind ?_
  intro result store' hreaches hknown
  cases result with
  | error error => exact .pure (hreaches.known h.known)
  | ok cursor => exact .pure (hknown cursor rfl)

theorem satisfying_behaves {r : Reading α} (hr : r.Behaves base excused) (accepts : α → Bool) :
    (satisfying r accepts).Behaves base excused := by
  intro store entry h
  refine (hr h).bind ?_
  intro result store' hreaches hknown
  rcases result with error | ⟨unit, next⟩
  · exact .pure (hreaches.known h.known)
  · dsimp only
    split
    · exact .pure hknown
    · exact .pure (hreaches.known h.known)

section

variable (hbase : base.Excuses excused)
include hbase

theorem endOfInput_behaves : endOfInput.Behaves base excused := by
  intro store entry h
  refine (hbase.bytes h).bind ?_
  intro result store' hreaches _
  have hknown := hreaches.known h.known
  split <;> exact .pure hknown

theorem proceeds_numeral_known
    (type : IntType) (negative : Bool) {store : Store} {entry start : Cursor}
    (h : base.KnownFrom store entry) (hstart : store.Known start) :
    store.Proceeds excused KnownIn ((numeral type negative entry start).run store) := by
  refine Proceeds.bind (hbase.bytes.readWhile _ _ _ (h.goto hstart)) ?_
  intro digits store' hreaches hknown
  split
  · exact .pure (hreaches.known h.known)
  · exact .pure hknown

theorem asciiDigits_behaves (type : IntType) : (asciiDigits type).Behaves base excused :=
  fun _ _ h => proceeds_numeral_known hbase type false h h.known

theorem signedAsciiDigits_behaves (type : IntType) :
    (signedAsciiDigits type).Behaves base excused := by
  intro store entry h
  refine (hbase.bytes h).bind ?_
  intro result store' hreaches hknown
  have hentry := h.after hreaches
  rcases result with error | ⟨b, next⟩
  · exact proceeds_numeral_known hbase type false hentry hentry.known
  · dsimp only
    split
    · exact proceeds_numeral_known hbase type true hentry hknown
    · exact proceeds_numeral_known hbase type false hentry hentry.known

end

/-! ## Combinations -/

section

variable {p q : Parser α}

theorem bind_behaves
    {next : α → Parser β} (hp : p.Behaves base excused)
    (hnext : ∀ a, (next a).Behaves base excused) : (bind p next).Behaves base excused := by
  intro store entry h
  refine (hp h).bind ?_
  intro parsed store' hreaches hknown
  have hentry := h.after hreaches
  rcases parsed with failure | ⟨value, cursor⟩
  · exact .pure hentry.known
  · refine (hnext value (hentry.goto hknown)).bind ?_
    intro parsed store'' hreaches' hknown'
    exact .pure (knownIn_rewind (hreaches'.known hentry.known) hknown')

theorem sequence_behaves
    {q : Parser β} (combine : α → β → Except Cause γ) (hp : p.Behaves base excused)
    (hq : q.Behaves base excused) : (sequence p q combine).Behaves base excused := by
  intro store entry h
  refine (hp h).bind ?_
  intro parsed store' hreaches hknown
  have hentry := h.after hreaches
  rcases parsed with failure | ⟨a, middle⟩
  · exact .pure hentry.known
  · refine (hq (hentry.goto hknown)).bind ?_
    intro parsed store'' hreaches' hknown'
    rcases parsed with failure | ⟨b, cursor⟩
    · exact .pure (hreaches'.known hentry.known)
    · dsimp only
      split
      · exact .pure (hreaches'.known hentry.known)
      · exact .pure hknown'

theorem map_behaves (f : α → β) (hp : p.Behaves base excused) :
    (map f p).Behaves base excused := by
  intro store entry h
  refine (hp h).bind ?_
  intro parsed store' _ hknown
  cases parsed <;> exact .pure hknown

theorem or_behaves (hp : p.Behaves base excused) (hq : q.Behaves base excused) :
    (or p q).Behaves base excused := by
  intro store entry h
  refine (hp h).bind ?_
  intro parsed store' hreaches hknown
  have hentry := h.after hreaches
  rcases parsed with failure | success
  · dsimp only
    split
    · refine (hq hentry).bind ?_
      intro parsed store'' hreaches' hknown'
      exact .pure (knownIn_rewind (hreaches'.known hentry.known) hknown')
    · exact .pure hentry.known
  · exact .pure hknown

theorem optional_behaves (hp : p.Behaves base excused) : (optional p).Behaves base excused := by
  intro store entry h
  refine (hp h).bind ?_
  intro parsed store' hreaches hknown
  have hentry := hreaches.known h.known
  rcases parsed with failure | ⟨value, cursor⟩
  · dsimp only
    split <;> exact .pure hentry
  · exact .pure hknown

theorem capturePositions_behaves (hp : p.Behaves base excused) :
    (capturePositions p).Behaves base excused := by
  intro store entry h
  refine (hp h).bind ?_
  intro parsed store' hreaches hknown
  rcases parsed with failure | ⟨value, cursor⟩
  · exact .pure (hreaches.known h.known)
  · exact .pure hknown

variable (hbase : base.Excuses excused)
include hbase

theorem newline_behaves : newline.Behaves base excused :=
  or_behaves (exactly_behaves hbase.runes _) (exactly_behaves hbase.runes _)

theorem proceeds_collect_known
    (hp : p.Behaves base excused) (values : Array α) {store : Store} {entry cursor : Cursor}
    (h : base.KnownFrom store entry) (hcursor : store.Known cursor) :
    store.Proceeds excused KnownIn ((collect p entry values cursor).run store) := by
  induction hleft : offsetLimit - cursor.position.offset using Nat.strongRecOn
    generalizing store values cursor with
  | ind left ih =>
      rw [collect]
      refine (hp (h.goto hcursor)).bind ?_
      intro parsed store' hreaches hknown
      have hentry := h.after hreaches
      rcases parsed with failure | ⟨value, next⟩
      · dsimp only
        split
        · exact .pure (hreaches.known hcursor)
        · exact .pure hentry.known
      · dsimp only
        split
        · exact .pure hknown
        · split
          · next hlimit => exact .fault (hbase.offset (hentry.goto hknown) hlimit)
          · exact ih (offsetLimit - next.position.offset) (by omega) _ hentry hknown rfl

theorem many_behaves (hp : p.Behaves base excused) : (many p).Behaves base excused :=
  fun _ _ h => proceeds_collect_known hbase hp #[] h h.known

theorem captureText_behaves (hp : p.Behaves base excused) :
    (captureText p).Behaves base excused := by
  intro store entry h
  refine (hp h).bind ?_
  intro parsed store' hreaches hknown
  have hentry := h.after hreaches
  rcases parsed with failure | ⟨value, cursor⟩
  · exact .pure hentry.known
  · refine (hbase.runes.textUntil (hbase.span hentry hknown) hentry).bind ?_
    intro text store'' hreaches' _
    cases text with
    | error error => exact .pure (hreaches'.known hentry.known)
    | ok text => exact .pure (hreaches'.known hknown)

theorem captureBytes_behaves (hp : p.Behaves base excused) :
    (captureBytes p).Behaves base excused := by
  intro store entry h
  refine (hp h).bind ?_
  intro parsed store' hreaches hknown
  have hentry := h.after hreaches
  rcases parsed with failure | ⟨value, cursor⟩
  · exact .pure hentry.known
  · have hspan : store'.Proceeds excused Anything ((entry.bytesUntil cursor).run store') :=
      ⟨Cursor.leads_bytesUntil entry cursor store', hbase.span hentry hknown⟩
    refine hspan.bind ?_
    intro bytes store'' hreaches' _
    exact .pure (hreaches'.known hknown)

end

/-! ## Grammars -/

theorem goto_behaves {cursor : Cursor} (h : base.Known cursor) :
    (goto cursor).Behaves base excused :=
  fun _ _ hentry => .pure (hentry.reaches.known h)

theorem times_behaves {p : Parser Value} (hp : p.Behaves base excused) (count : Nat) :
    (times p count).Behaves base excused := by
  induction count with
  | zero => exact succeed_behaves _
  | succ count ih => exact sequence_behaves _ ih hp

theorem failAfter_behaves
    (hbase : base.Excuses excused) (count : Nat) (reason : Reason) :
    (failAfter count reason : Parser α).Behaves base excused := by
  intro store entry h
  refine Proceeds.bind (hbase.bytes.readUpTo (some count) h) ?_
  intro traversal store' _ hknown
  exact .pure hknown

theorem again_behaves
    (hbase : base.Excuses excused) (hnames : ∀ name, excused (.undefined name)) (value : Value) :
    (again value).Behaves base excused := by
  cases value with
  | text text => exact map_behaves _ (exactly_behaves hbase.runes _)
  | number code => exact map_behaves _ (exactly_behaves hbase.runes _)
  | _ =>
      simp only [again]
      split
      · exact map_behaves _ (exactly_behaves hbase.bytes _)
      · exact fault_behaves (hnames _)

end Parser

/-- What grammars rely on is excused to go wrong: the names in an expression stand for parsers that
behave and for known cursors, or for nothing. -/
structure Scope.Behaves (scope : Scope) (base : Store) (excused : Fault → Prop) : Prop where
  excuses : base.Excuses excused
  undefined : ∀ name, excused (.undefined name)
  rule : ∀ name, (scope.rule name).Behaves base excused
  register : ∀ {name : String} {cursor : Cursor}, scope.register name = some cursor →
    base.Known cursor

section

variable {base : Store} {excused : Fault → Prop} {scope : Scope}

open StreamParse.Parser

mutual

theorem Expr.parser_behaves (h : scope.Behaves base excused) :
    (expr : Expr) → (expr.parser scope).Behaves base excused
  | .literal text => map_behaves _ (exactly_behaves h.excuses.runes text.toList)
  | .literalBytes bytes => map_behaves _ (exactly_behaves h.excuses.bytes bytes)
  | .satisfy _ => map_behaves _ (satisfying_behaves h.excuses.runes _)
  | .satisfyByte _ => map_behaves _ (satisfying_behaves h.excuses.bytes _)
  | .bind first next => bind_behaves (first.parser_behaves h) (next.parser_behaves h)
  | .sequence first second _ =>
    sequence_behaves _ (first.parser_behaves h) (second.parser_behaves h)
  | .map parser _ => map_behaves _ (parser.parser_behaves h)
  | .or first second => or_behaves (first.parser_behaves h) (second.parser_behaves h)
  | .optional parser => map_behaves _ (optional_behaves (parser.parser_behaves h))
  | .many parser => map_behaves _ (many_behaves h.excuses (parser.parser_behaves h))
  | .endOfInput => map_behaves _ (endOfInput_behaves h.excuses)
  | .newline => map_behaves _ (newline_behaves h.excuses)
  | .captureText parser =>
    map_behaves _ (captureText_behaves h.excuses (parser.parser_behaves h))
  | .captureBytes parser =>
    map_behaves _ (captureBytes_behaves h.excuses (parser.parser_behaves h))
  | .capturePositions parser =>
    map_behaves _ (capturePositions_behaves (parser.parser_behaves h))
  | .digits type => map_behaves _ (asciiDigits_behaves h.excuses type)
  | .signedDigits type => map_behaves _ (signedAsciiDigits_behaves h.excuses type)
  | .failAfter count reason => failAfter_behaves h.excuses count reason
  | .goto register => by
    rw [Expr.parser]
    split
    · next cursor hcursor => exact map_behaves _ (goto_behaves (h.register hcursor))
    · exact fault_behaves (h.undefined register)
  | .rule name => h.rule name

theorem Next.parser_behaves (h : scope.Behaves base excused) :
    (next : Next) → (value : Value) → (next.parser scope value).Behaves base excused
  | .const parser, _ => parser.parser_behaves h
  | .pair parser, _ => map_behaves _ (parser.parser_behaves h)
  | .again, value => again_behaves h.excuses h.undefined value
  | .switch cases, value => cases.parser_behaves h value
  | .times parser, value => by
    cases value with
    | text count => exact times_behaves (parser.parser_behaves h) _
    | _ => exact fault_behaves (h.undefined _)

theorem Cases.parser_behaves (h : scope.Behaves base excused) :
    (cases : Cases) → (value : Value) → (cases.parser scope value).Behaves base excused
  | .case expected parser rest, value => by
    rw [Cases.parser]
    split
    · exact parser.parser_behaves h
    · exact rest.parser_behaves h value
  | .otherwise parser, _ => parser.parser_behaves h

end

/-- The parser of a grammar is made of reads, if the cursors in the registers are known.  Its rules
may lack a definition or an end. -/
theorem Grammar.parser_behaves
    (hbase : base.Excuses excused) (hnames : ∀ name, excused (.undefined name))
    (hendless : excused .endless) (grammar : Grammar) {register : String → Option Cursor}
    (h : ∀ name cursor, register name = some cursor → base.Known cursor) (expr : Expr) :
    (grammar.parser register expr).Behaves base excused := by
  have hrules : ∀ depth name, (grammar.ruleParser register depth name).Behaves base excused := by
    intro depth
    induction depth with
    | zero => exact fun _ => fault_behaves hendless
    | succ depth ih =>
        intro name store entry hentry
        rw [ruleParser]
        split
        · exact .fault (hnames name)
        · exact Expr.parser_behaves ⟨hbase, hnames, ih, fun hcursor => h _ _ hcursor⟩ _ hentry
  exact Expr.parser_behaves
    ⟨hbase, hnames, hrules maxDepth, fun hcursor => h _ _ hcursor⟩ expr

end

end StreamParse
