import StreamParse.Proofs.Parser.Digits
import StreamParse.Proofs.Parser.Onward
import StreamParse.Proofs.Place

/-!
# Numbers are exact

A number is found exactly if the type has it, however many digits it is written with and whatever
the wrapped value comes back to.  With a sign, the whole range of a type is covered: the decimal
text of a value gives this value back.
-/

namespace StreamParse

open Store Session
open Numeral (number signed decimal)

theorem Position.minus_ne_lineFeed : ∀ b ∈ [(0x2D : UInt8)], b.toNat ≠ lineFeed :=
  List.forall_mem_singleton.2 (by decide)

/-- The parser gives a value, with the cursor that reading the given bytes one by one leads to. -/
def Parser.TakesBytes
    {α : Type} (p : Parser α) (s : Cursor) (store : Store) (bytes : List UInt8) (value : α) :
    Prop :=
  ∃ next store', ((p s).run store).1 = .ok (.ok (value, next)) ∧
    next.position = s.position.along bytes.length ∧ s.Through .bytes store bytes next store'

namespace Session.Stands

variable {grammar : Grammar} {inputs : List (String × Input)} {i : Nat} {store store' : Store}
  {content : Content} {a b s last : Cursor}

/-- Cursors on one input with the same position are the same, also if they come from different
courses of the session. -/
theorem eq_of_courses
    (ha : Stands grammar inputs i store a) (hb : Stands grammar inputs i store' b)
    (hposition : a.position = b.position) : a = b := by
  have hanchor := ha.anchor_eq_of_courses hb (congrArg Position.offset hposition)
  cases a
  cases b
  cases hanchor
  cases hposition
  rfl

theorem through
    {α : Type} {r : Reading α} (hr : r.Regular) {units : List α}
    (hthrough : s.Through r store units last store') (h : Stands grammar inputs i store s) :
    Stands grammar inputs i store' last := by
  induction hthrough with
  | nil => exact h
  | @cons cursor next last store store₁ store' unit units hread _ ih =>
      obtain ⟨⟨hreaches, hgives⟩, -⟩ := (Cursor.proceeds_read hr h :
        store.Proceeds (Excused inputs i fun _ => False) _ _)
      rw [hread] at hreaches hgives
      exact ih ((h.after hreaches).onward (hgives _ rfl))

section

variable {α : Type} {p q : Parser α} {ref ref' : Reference α} {error : Error} {value : α}
  {stop : Position} {bytes : List UInt8}
  (hcontent : (Input.contents inputs)[i]? = some content)
  (hclaims : ∀ conduct, content.ending ≠ .overclaimed conduct)
  (h : Stands grammar inputs i store s) (hp : p.Refines ref)
include hcontent hclaims h hp

theorem run_of_error (herror : ref (some content) s.position = .ok (.error error)) :
    ((p s).run store).1 = .ok (.error ⟨error, s⟩) := by
  have hrun := hp (h.sees hcontent hclaims)
  rw [herror] at hrun
  generalize (p s).run store = result at hrun ⊢
  cases hrun with
  | error => rfl

variable (honward : p.GoesOnward grammar inputs i fun _ => False)
include honward

theorem exists_run_of_ok (hok : ref (some content) s.position = .ok (.ok (value, stop))) :
    ∃ next store', (p s).run store = (.ok (.ok (value, next)), store') ∧ next.position = stop ∧
      Stands grammar inputs i store' next := by
  have hrun := hp (h.sees hcontent hclaims)
  rw [hok] at hrun
  obtain ⟨next, store', hresult, hposition, -⟩ := hrun.exists_of_success
  obtain ⟨⟨hreaches, hgives⟩, -⟩ := honward h
  rw [hresult] at hreaches hgives
  exact ⟨next, store', hresult, hposition, (h.after hreaches).onward (hgives _ rfl)⟩

theorem takesBytes
    (hok : ref (some content) s.position =
      .ok (.ok (value, s.position.along bytes.length)))
    (hbytes : bytes <+: content.bytes.drop s.position.offset)
    (hline : ∀ b ∈ bytes, b.toNat ≠ Position.lineFeed) :
    p.TakesBytes s store bytes value := by
  obtain ⟨next, store', hresult, hposition, hnext⟩ :=
    exists_run_of_ok hcontent hclaims h hp honward hok
  obtain ⟨last, store₁, hthrough, -⟩ :=
    Cursor.exists_through_bytes (h.sees hcontent hclaims) hbytes
  have hlast := h.through Reading.regular_bytes hthrough
  have hsame : next.position = last.position := by
    rw [hposition, hthrough.position_eq_foldl]
    exact (Position.foldl_advance s.position hline).symm
  obtain rfl : next = last := hnext.eq_of_courses hlast hsame
  exact ⟨next, store₁, congrArg Prod.fst hresult, hposition, hthrough⟩

/-- Parsers whose references agree have the same outcome, in whichever course of the session each of
them is run. -/
theorem run_eq_of_reference_eq
    (h' : Stands grammar inputs i store' s) (hq : q.Refines ref')
    (honward' : q.GoesOnward grammar inputs i fun _ => False)
    (hsame : ref (some content) s.position = ref' (some content) s.position)
    (htotal : ∃ parsed, ref (some content) s.position = .ok parsed) :
    ((p s).run store).1 = ((q s).run store').1 := by
  obtain ⟨error | ⟨value, stop⟩, hparsed⟩ := htotal
  · rw [run_of_error hcontent hclaims h hp hparsed,
      run_of_error hcontent hclaims h' hq (hsame ▸ hparsed)]
  · obtain ⟨next, store₁, hresult, hposition, hnext⟩ :=
      exists_run_of_ok hcontent hclaims h hp honward hparsed
    obtain ⟨next', store₂, hresult', hposition', hnext'⟩ :=
      exists_run_of_ok hcontent hclaims h' hq honward' (hsame ▸ hparsed)
    obtain rfl : next = next' := hnext.eq_of_courses hnext' (hposition.trans hposition'.symm)
    rw [hresult, hresult']

end

section

variable {p : Parser Int} {ref : Reference Int} {type : IntType} {negative : Bool}
  {before : List UInt8}
  (hcontent : (Input.contents inputs)[i]? = some content)
  (hclaims : ∀ conduct, content.ending ≠ .overclaimed conduct)
  (h : Stands grammar inputs i store s) (hp : p.Refines ref)
  (honward : p.GoesOnward grammar inputs i fun _ => False)
  (hbefore : before <+: content.bytes.drop s.position.offset)
  (hline : ∀ b ∈ before, b.toNat ≠ Position.lineFeed)
  (href : ref (some content) s.position =
    Reference.numeral type negative s.position (some content) (s.position.along before.length))
include hcontent hclaims h hp honward hbefore hline href

/-- A parser that takes some bytes and then a numeral takes both, or goes back to where it began. -/
theorem numeral_exact :
    let start := s.position.along before.length
    let digits := content.digits start.offset
    let stop := start.along digits.length
    let n := signed negative (number digits)
    let result := ((p s).run store).1
    (∀ failure, content.FailsAt stop failure →
      result = .ok (.error ⟨.positioned stop (.source failure), s⟩)) ∧
    ((∀ failure, ¬ content.FailsAt stop failure) →
      (digits = [] → result = .ok (.error ⟨.noMatch, s⟩)) ∧
      (digits ≠ [] → type.Fits n → p.TakesBytes s store (before ++ digits) n) ∧
      (digits ≠ [] → ¬ type.Fits n →
        result = .ok (.error ⟨.positioned s.position (.overflow type), s⟩))) := by
  intro start digits stop n result
  obtain ⟨more, hmore⟩ := hbefore
  have hdrop : content.bytes.drop start.offset = more := by
    rw [Position.offset_along, ← List.drop_drop, ← hmore, List.drop_left]
  have hle : start.offset ≤ content.bytes.length := by
    have hlength := congrArg List.length hmore
    rw [List.length_append, List.length_drop] at hlength
    have hentry := h.offset_le hcontent
    rw [Position.offset_along]
    omega
  have hdigits : digits <+: more := hdrop ▸ content.digits_isPrefix start.offset
  refine ⟨?_, ?_⟩
  · intro failure hfails
    exact run_of_error hcontent hclaims h hp (href.trans (Reference.numeral_of_failsAt hfails))
  intro hsound
  refine ⟨?_, ?_, ?_⟩
  · intro hnil
    exact run_of_error hcontent hclaims h hp
      (href.trans (Reference.numeral_of_nil hle hclaims hsound hnil))
  · intro hne hfits
    have hstop : s.position.along (before ++ digits).length = stop := by
      rw [List.length_append, ← Position.along_along]
    refine takesBytes hcontent hclaims h hp honward ?_ ?_ ?_
    · rw [hstop]
      exact href.trans (Reference.numeral_of_fits hle hclaims hsound hne hfits)
    · rw [← hmore]
      exact (List.prefix_append_right_inj before).2 hdigits
    · intro b hb
      rcases List.mem_append.1 hb with hb | hb
      · exact hline b hb
      · exact Content.ne_lineFeed_of_isDigit (Content.isDigit_of_mem_digits hb)
  · intro hne hout
    exact run_of_error hcontent hclaims h hp
      (href.trans (Reference.numeral_of_not_fits hle hclaims hsound hne hout))

/-- Digits that are given by a number, and not followed by another digit, give this number back. -/
theorem takesBytes_decimal
    {n : Nat} {rest : List UInt8}
    (hdrop : content.bytes.drop s.position.offset = before ++ (decimal n ++ rest))
    (hrest : ∀ b more, rest = b :: more → Numeral.isDigit b = false)
    (hended : rest = [] → content.ending = .ended) (hfits : type.Fits (signed negative n)) :
    p.TakesBytes s store (before ++ decimal n) (signed negative n) := by
  have hafter : content.bytes.drop (s.position.along before.length).offset =
      decimal n ++ rest := by
    rw [Position.offset_along, ← List.drop_drop, hdrop, List.drop_left]
  have hdigits : content.digits (s.position.along before.length).offset = decimal n :=
    Content.digits_of_drop hafter (fun b hb => Numeral.isDigit_of_mem_decimal hb) hrest
  obtain ⟨-, hsound⟩ := numeral_exact hcontent hclaims h hp honward hbefore hline href
  rw [hdigits, Numeral.number_decimal] at hsound
  obtain ⟨-, htakes, -⟩ := hsound (Content.not_failsAt_of_drop hafter hended)
  exact htakes (Numeral.decimal_ne_nil n) hfits

end

section

variable (hcontent : (Input.contents inputs)[i]? = some content)
  (hclaims : ∀ conduct, content.ending ≠ .overclaimed conduct)
  (h : Stands grammar inputs i store s) (type : IntType)
include hcontent hclaims h

/-- Without a minus sign a signed number is read like one without sign. -/
theorem run_eq_of_ne_minus
    (h' : Stands grammar inputs i store' s)
    (hplain : content.bytes[s.position.offset]? ≠ some 0x2D) :
    ((Parser.signedAsciiDigits type s).run store).1 =
      ((Parser.asciiDigits type s).run store').1 := by
  have hsame := Reference.signedDigits_of_ne_minus (p := s.position) type hplain
  exact run_eq_of_reference_eq hcontent hclaims h (Parser.signedAsciiDigits_refines type)
    (Parser.signedAsciiDigits_onward type) h' (Parser.asciiDigits_refines type)
    (Parser.asciiDigits_onward type) hsame
    (hsame ▸ Reference.numeral_total type false s.position s.position hclaims)

/-- A value that the type has is given back by its decimal text. -/
theorem takesBytes_toString
    {v : Int} {rest : List UInt8} (hfits : type.Fits v)
    (hdrop : content.bytes.drop s.position.offset = Utf8.encode (toString v).toList ++ rest)
    (hrest : ∀ b more, rest = b :: more → Numeral.isDigit b = false)
    (hended : rest = [] → content.ending = .ended) :
    (Parser.signedAsciiDigits type).TakesBytes s store (Utf8.encode (toString v).toList) v := by
  have hrefines := Parser.signedAsciiDigits_refines type
  have honward : (Parser.signedAsciiDigits type).GoesOnward grammar inputs i fun _ => False :=
    Parser.signedAsciiDigits_onward type
  have hfirst : content.bytes[s.position.offset]? =
      (Utf8.encode (toString v).toList ++ rest)[0]? := by
    rw [← hdrop, List.getElem?_drop, Nat.add_zero]
  rw [Numeral.encode_toString] at hdrop hfirst ⊢
  by_cases hv : 0 ≤ v
  · obtain ⟨n, rfl⟩ := Int.eq_ofNat_of_zero_le hv
    rw [if_pos hv, Int.toNat_natCast] at hdrop hfirst ⊢
    have hplain : content.bytes[s.position.offset]? ≠ some 0x2D := by
      rcases hdecimal : decimal n with _ | ⟨b, more⟩
      · exact absurd hdecimal (Numeral.decimal_ne_nil n)
      · have hb : Numeral.isDigit b = true :=
          Numeral.isDigit_of_mem_decimal (hdecimal ▸ List.mem_cons_self)
        rw [hfirst, hdecimal]
        rintro ⟨⟩
        exact absurd hb (by decide)
    exact takesBytes_decimal hcontent hclaims h hrefines honward List.nil_prefix (by simp)
      (Reference.signedDigits_of_ne_minus type hplain) hdrop hrest hended hfits
  · obtain ⟨n, hn⟩ := Int.eq_ofNat_of_zero_le (Int.le_of_lt (Int.neg_pos_of_neg (Int.not_le.1 hv)))
    obtain rfl : v = -n := by rw [← hn, Int.neg_neg]
    rw [if_neg hv, Int.neg_neg, Int.toNat_natCast] at hdrop hfirst ⊢
    have hminus : content.bytes[s.position.offset]? = some 0x2D := hfirst
    have hbefore : [0x2D] <+: content.bytes.drop s.position.offset :=
      hdrop ▸ List.prefix_append [0x2D] _
    exact takesBytes_decimal hcontent hclaims h hrefines honward hbefore Position.minus_ne_lineFeed
      (Reference.signedDigits_of_minus type hminus) hdrop hrest hended hfits

end

end Session.Stands

namespace Session

/-- Numbers without sign are exact.  Whatever was read before and however the input comes in pieces,
the digits after a cursor decide the outcome: a failure of the source directly after them is raised
where it is met; otherwise nothing matches without digits, a number that the type has is given with
the cursor that the digits lead to, and a larger one is reported where it begins.  Every failure
goes back to the cursor. -/
theorem digits_exact (grammar : Grammar) (inputs : List (String × Input)) :
    ∀ store, (start grammar inputs).store.Reaches store → ∀ i content s,
      (Input.contents inputs)[i]? = some content → store.Known s →
        store.Onward (Cursor.origin i) s →
        (∀ conduct, content.ending ≠ .overclaimed conduct) → ∀ type : IntType,
          let digits := content.digits s.position.offset
          let n := number digits
          let stop := s.position.along digits.length
          let result := ((Parser.asciiDigits type s).run store).1
          (∀ failure, content.FailsAt stop failure →
            result = .ok (.error ⟨.positioned stop (.source failure), s⟩)) ∧
          ((∀ failure, ¬ content.FailsAt stop failure) →
            (digits = [] → result = .ok (.error ⟨.noMatch, s⟩)) ∧
            (digits ≠ [] → n ≤ type.greatest →
              (Parser.asciiDigits type).TakesBytes s store digits n) ∧
            (digits ≠ [] → type.greatest < n →
              result = .ok (.error ⟨.positioned s.position (.overflow type), s⟩))) := by
  intro store hreaches i content s hcontent hknown honward hclaims type digits n stop result
  have hstands := stands_of_onward_origin hreaches hknown honward
  obtain ⟨hfailed, hsound⟩ := Stands.numeral_exact hcontent hclaims hstands
    (Parser.asciiDigits_refines type) (Parser.asciiDigits_onward type) List.nil_prefix (by simp) rfl
  refine ⟨hfailed, ?_⟩
  intro h
  obtain ⟨hnone, hfits, hout⟩ := hsound h
  refine ⟨hnone, ?_, ?_⟩
  · intro hne hle
    exact hfits hne ((IntType.fits_natCast_iff n).2 hle)
  · intro hne hlt
    exact hout hne fun h => absurd hlt (Int.not_lt.2 ((IntType.fits_natCast_iff n).1 h))

/-- A number from two pieces, which a byte cannot hold: wrapped, it would be 44. -/
theorem digits_exact_of_pieces :
    let inputs : List (String × Input) :=
      [("s", .streaming
        ⟨.supplier, [.deliver [0x33, 0x30] false, .deliver [0x30, 0x3B] true]⟩ default)]
    let store := (start ⟨[]⟩ inputs).store
    let s := Cursor.origin 0
    let content : Content := ⟨[0x33, 0x30, 0x30, 0x3B], .ended⟩
    (Input.contents inputs)[0]? = some content ∧ content.digits 0 = [0x33, 0x30, 0x30] ∧
      ((Parser.asciiDigits ⟨false, .w8⟩ s).run store).1 =
        .ok (.error ⟨.positioned .start (.overflow ⟨false, .w8⟩), s⟩) ∧
      (Parser.asciiDigits ⟨false, .w16⟩).TakesBytes s store [0x33, 0x30, 0x30] 300 := by
  intro inputs store s content
  have hcontent : (Input.contents inputs)[0]? = some content := rfl
  have hstands : Stands ⟨[]⟩ inputs 0 store s := stands_origin .refl hcontent
  have hdigits : content.digits s.position.offset = [0x33, 0x30, 0x30] := by decide
  have hexact := digits_exact ⟨[]⟩ inputs store .refl 0 content s hcontent hstands.known .refl
    (by simp [content])
  have hsound : ∀ failure, ¬ content.FailsAt (s.position.along 3) failure := by
    intro failure hfails
    exact absurd (Content.failsAt_iff.1 hfails).1 (by decide)
  obtain ⟨-, hbyte⟩ := hexact ⟨false, .w8⟩
  obtain ⟨-, hword⟩ := hexact ⟨false, .w16⟩
  rw [hdigits] at hbyte hword
  obtain ⟨-, -, hout⟩ := hbyte hsound
  obtain ⟨-, htakes, -⟩ := hword hsound
  exact ⟨hcontent, hdigits, hout (by simp) (by decide), htakes (by simp) (by decide)⟩

/-- Numbers with a sign are exact.  What does not begin with a minus sign is read as a number
without sign, with the same outcome in every course of the session.  After a minus sign the digits
decide the outcome as they do for a number without sign, but it is the least value of the type that
counts; so minus zero is a number of every type.  The decimal text of a value that the type has,
if no digit and no failure follows, gives this value back. -/
theorem signedDigits_exact (grammar : Grammar) (inputs : List (String × Input)) :
    ∀ store, (start grammar inputs).store.Reaches store → ∀ i content s,
      (Input.contents inputs)[i]? = some content → store.Known s →
        store.Onward (Cursor.origin i) s →
        (∀ conduct, content.ending ≠ .overclaimed conduct) → ∀ type : IntType,
          let result := ((Parser.signedAsciiDigits type s).run store).1
          let first := content.bytes[s.position.offset]?
          (first ≠ some 0x2D →
            ∀ store', (start grammar inputs).store.Reaches store' → store'.Known s →
              result = ((Parser.asciiDigits type s).run store').1) ∧
          (first = some 0x2D →
            let digits := content.digits (s.position.offset + 1)
            let n := number digits
            let stop := (s.position.along 1).along digits.length
            (∀ failure, content.FailsAt stop failure →
              result = .ok (.error ⟨.positioned stop (.source failure), s⟩)) ∧
            ((∀ failure, ¬ content.FailsAt stop failure) →
              (digits = [] → result = .ok (.error ⟨.noMatch, s⟩)) ∧
              (digits ≠ [] → type.least ≤ -n →
                (Parser.signedAsciiDigits type).TakesBytes s store (0x2D :: digits) (-n)) ∧
              (digits ≠ [] → -n < type.least →
                result = .ok (.error ⟨.positioned s.position (.overflow type), s⟩)))) ∧
          ∀ v rest, type.Fits v →
            content.bytes.drop s.position.offset = Utf8.encode (toString v).toList ++ rest →
              (∀ b more, rest = b :: more → Numeral.isDigit b = false) →
                (rest = [] → content.ending = .ended) →
                  (Parser.signedAsciiDigits type).TakesBytes s store
                    (Utf8.encode (toString v).toList) v := by
  intro store hreaches i content s hcontent hknown honward hclaims type result first
  have hstands := stands_of_onward_origin hreaches hknown honward
  refine ⟨?_, ?_, ?_⟩
  · intro hplain store' hreaches' hknown'
    have hstands' : Stands grammar inputs i store' s := ⟨hreaches', hknown', hstands.on⟩
    exact Stands.run_eq_of_ne_minus hcontent hclaims hstands type hstands' hplain
  · intro hminus digits n stop
    have hbefore : [0x2D] <+: content.bytes.drop s.position.offset := by
      obtain ⟨hlt, hget⟩ := List.getElem?_eq_some_iff.1 hminus
      rw [List.drop_eq_getElem_cons hlt, hget]
      exact List.prefix_append [0x2D] _
    obtain ⟨hfailed, hsound⟩ := Stands.numeral_exact hcontent hclaims hstands
      (Parser.signedAsciiDigits_refines type) (Parser.signedAsciiDigits_onward type) hbefore
      Position.minus_ne_lineFeed (Reference.signedDigits_of_minus type hminus)
    refine ⟨hfailed, ?_⟩
    intro h
    obtain ⟨hnone, hfits, hout⟩ := hsound h
    refine ⟨hnone, ?_, ?_⟩
    · intro hne hle
      exact hfits hne ((IntType.fits_neg_natCast_iff n).2 hle)
    · intro hne hlt
      exact hout hne fun h => absurd hlt (Int.not_lt.2 ((IntType.fits_neg_natCast_iff n).1 h))
  · intro v rest hfits hdrop hrest hended
    exact Stands.takesBytes_toString hcontent hclaims hstands type hfits hdrop hrest hended

/-- The least value of a signed byte, from two pieces.  A type without sign has it not; what has no
sign is read alike by both parsers. -/
theorem signedDigits_exact_of_least :
    let inputs : List (String × Input) :=
      [("s", .streaming
          ⟨.supplier, [.deliver [0x2D, 0x31] false, .deliver [0x32, 0x38, 0x3B] true]⟩ default),
        ("t", .complete [0x37])]
    let store := (start ⟨[]⟩ inputs).store
    let s := Cursor.origin 0
    let t := Cursor.origin 1
    let ahead : List UInt8 := [0x2D, 0x31, 0x32, 0x38]
    Utf8.encode (toString (-128 : Int)).toList = ahead ∧
      (Parser.signedAsciiDigits ⟨true, .w8⟩).TakesBytes s store ahead (-128) ∧
      ((Parser.signedAsciiDigits ⟨false, .w8⟩ s).run store).1 =
        .ok (.error ⟨.positioned .start (.overflow ⟨false, .w8⟩), s⟩) ∧
      ((Parser.signedAsciiDigits ⟨true, .w8⟩ t).run store).1 =
        ((Parser.asciiDigits ⟨true, .w8⟩ t).run store).1 := by
  intro inputs store s t ahead
  let content : Content := ⟨ahead ++ [0x3B], .ended⟩
  have hcontent : (Input.contents inputs)[0]? = some content := rfl
  have hstands : Stands ⟨[]⟩ inputs 0 store s := stands_origin .refl hcontent
  have hexact := signedDigits_exact ⟨[]⟩ inputs store .refl 0 content s hcontent hstands.known .refl
    (by simp [content])
  have htext : Utf8.encode (toString (-128 : Int)).toList = ahead := by decide +kernel
  obtain ⟨-, -, hback⟩ := hexact ⟨true, .w8⟩
  obtain ⟨-, hbyte, -⟩ := hexact ⟨false, .w8⟩
  have htakes := hback (-128) [0x3B] (by decide) (htext ▸ rfl) (by simp; decide) (by simp)
  obtain ⟨-, hsound⟩ := hbyte rfl
  obtain ⟨-, -, hout⟩ := hsound (by
    intro failure hfails
    exact absurd (Content.failsAt_iff.1 hfails).1 (by decide))
  have hcontent' : (Input.contents inputs)[1]? = some ⟨[0x37], .ended⟩ := rfl
  have hstands' : Stands ⟨[]⟩ inputs 1 store t := stands_origin .refl hcontent'
  obtain ⟨hplain, -⟩ := signedDigits_exact ⟨[]⟩ inputs store .refl 1 _ t hcontent' hstands'.known
    .refl (by simp) ⟨true, .w8⟩
  rw [htext] at htakes
  exact ⟨htext, htakes, hout (by decide) (by decide), hplain (by decide) store .refl hstands'.known⟩

end Session
end StreamParse
