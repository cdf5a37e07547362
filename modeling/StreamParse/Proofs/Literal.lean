import StreamParse.Proofs.Parser.Literal
import StreamParse.Proofs.Parser.Onward
import StreamParse.Proofs.Place

/-!
# Literals match their encodings

A text is matched by comparing scalar values, and its encoding by comparing bytes.  Both match at
the same places and lead to the same place, in whichever course of the session each of them is
tried.  Where the text is not matched, the error tells what follows the longest run of its scalar
values that stands in the input.
-/

namespace StreamParse

open Store Session

namespace Parser

variable {α : Type} [DecidableEq α] {r : Reading α} (exact : r.Exact) {store : Store} {i : Nat}
  {content : Content} {entry next : Cursor} {expected : List α}

theorem exists_run_exactly
    (hsees : store.Sees i (some content) entry)
    (h : exact.encode expected <+: content.bytes.drop entry.position.offset) :
    ∃ next, ((exactly r expected entry).run store).1 = .ok (.ok ((), next)) := by
  have hrun := exactly_refines exact.account expected hsees
  rw [exact.exactly_of_isPrefix h] at hrun
  obtain ⟨next, store', hresult, -⟩ := hrun.exists_of_success
  exact ⟨next, congrArg Prod.fst hresult⟩

theorem isPrefix_of_run_exactly
    (hsees : store.Sees i (some content) entry)
    (hnext : ((exactly r expected entry).run store).1 = .ok (.ok ((), next))) :
    exact.encode expected <+: content.bytes.drop entry.position.offset ∧
      next.position = Reading.Exact.pass r entry.position expected := by
  have hrun := exactly_refines exact.account expected hsees
  by_cases h : exact.encode expected <+: content.bytes.drop entry.position.offset
  · rw [exact.exactly_of_isPrefix h] at hrun
    obtain ⟨next', store', hresult, hposition, -⟩ := hrun.exists_of_success
    rw [hresult] at hnext
    obtain rfl : next' = next := congrArg Prod.snd (Except.ok.inj (Except.ok.inj hnext))
    exact ⟨h, hposition⟩
  · have hrefused := exact.exactly_ne_ok h
    generalize Reference.exactly exact.account expected (some content) entry.position = outcome
      at hrun hrefused
    generalize (exactly r expected entry).run store = result at hrun hnext
    cases hrun with
    | fault => cases hnext
    | error => cases hnext
    | success => exact absurd rfl (hrefused _)

end Parser

namespace Session.Stands

variable {grammar : Grammar} {inputs : List (String × Input)} {i : Nat} {store store' : Store}
  {content : Content} {entry : Cursor}

section

variable {α : Type} [DecidableEq α] {r : Reading α} (exact : r.Exact) {next : Cursor}
  {expected : List α}

/-- Units are matched exactly where they stand after the entry. -/
theorem run_exactly_iff
    (h : Stands grammar inputs i store entry)
    (hcontent : (Input.contents inputs)[i]? = some content) :
    (∃ next, ((Parser.exactly r expected entry).run store).1 = .ok (.ok ((), next))) ↔
      exact.encode expected <+: content.bytes.drop entry.position.offset := by
  obtain ⟨view, hbytes, hsees, -⟩ := h.exists_sees h hcontent
  rw [← hbytes]
  constructor
  · rintro ⟨next, hnext⟩
    exact (Parser.isPrefix_of_run_exactly exact hsees hnext).1
  · exact Parser.exists_run_exactly exact hsees

theorem next_of_exactly
    (h : Stands grammar inputs i store entry)
    (hnext : ((Parser.exactly r expected entry).run store).1 = .ok (.ok ((), next)))
    (hr : r.Regular) :
    Stands grammar inputs i ((Parser.exactly r expected entry).run store).2 next ∧
      next.position.offset = entry.position.offset + (exact.encode expected).length := by
  have honward : (Parser.exactly r expected).GoesOnward grammar inputs i fun _ => False :=
    Parser.exactly_onward hr expected
  obtain ⟨⟨hreaches, hgives⟩, -⟩ := honward h
  obtain ⟨content, view, -, -, hsees, -⟩ := h.exists_view h
  obtain ⟨-, hposition⟩ := Parser.isPrefix_of_run_exactly exact hsees hnext
  exact ⟨(h.after hreaches).onward (hgives _ hnext), by rw [hposition, exact.offset_pass]⟩

end

/-- A text and its encoding lead to the same place, also in different courses of the session. -/
theorem place_eq_of_literals
    (h : Stands grammar inputs i store entry) (h' : Stands grammar inputs i store' entry)
    {text : String} {next next' : Cursor}
    (hnext : ((Parser.literal text entry).run store).1 = .ok (.ok ((), next)))
    (hnext' : ((Parser.literalBytes (Utf8.encode text.toList) entry).run store').1 =
      .ok (.ok ((), next'))) :
    next.anchor = next'.anchor ∧
      next.position.offset = entry.position.offset + (Utf8.encode text.toList).length ∧
        next'.position.offset = next.position.offset ∧
          next'.position.line = next.position.line := by
  obtain ⟨content, hcontent⟩ := h.exists_content
  obtain ⟨hstands, hoffset⟩ := h.next_of_exactly .runes hnext Reading.regular_runes
  obtain ⟨hstands', hoffset'⟩ := h'.next_of_exactly .bytes hnext' Reading.regular_bytes
  have hlength : (Reading.Exact.bytes.encode (Utf8.encode text.toList)).length =
      (Utf8.encode text.toList).length := by
    rw [Reading.Exact.encode_bytes]
  have hsame : next'.position.offset = next.position.offset := by
    rw [hoffset, hoffset', hlength]
    rfl
  exact ⟨hstands.anchor_eq_of_courses hstands' hsame.symm, hoffset, hsame,
    by rw [hstands'.line_eq hcontent, hstands.line_eq hcontent, hsame]⟩

/-- A text that does not stand after the entry is refused with the entry, after the longest run of
its scalar values that does stand there. -/
theorem exists_refuses
    (h : Stands grammar inputs i store entry)
    (hcontent : (Input.contents inputs)[i]? = some content)
    (hending : ∀ conduct, content.ending ≠ .overclaimed conduct) {text : String}
    (hne : ¬ Utf8.encode text.toList <+: content.bytes.drop entry.position.offset) :
    ∃ common c rest error, text.toList = common ++ c :: rest ∧
      Utf8.encode common <+: content.bytes.drop entry.position.offset ∧
      (∀ other, other <+: text.toList →
        Utf8.encode other <+: content.bytes.drop entry.position.offset → other <+: common) ∧
      ((Parser.literal text entry).run store).1 = .ok (.error ⟨error, entry⟩) ∧
      content.Refuses (entry.position.pass common) c error := by
  have hsees := h.sees hcontent hending
  obtain ⟨common, c, rest, error, htext, hcommon, hlongest, hexactly, hrefuses⟩ :=
    Content.exists_refuses hne hending (h.offset_le hcontent)
  have hrun := Parser.exactly_refines .runes text.toList hsees
  rw [hexactly] at hrun
  refine ⟨common, c, rest, error, htext, hcommon, hlongest, ?_, hrefuses⟩
  rw [Parser.literal]
  generalize (Parser.exactly .runes text.toList entry).run store = result at hrun ⊢
  cases hrun with
  | error => rfl

end Session.Stands

namespace Session

/-- Literals match exactly their encodings.  From every cursor that single reads led to, a text is
matched if and only if its encoding stands in the content after the cursor, and so is the encoding
itself, read by bytes.  Both lead to the same chunk and index, to the offset after the encoding and
to the same line, also if they are tried in different courses of the session.  A text that is not
matched fails with the cursor that it was tried from; unless the source overclaims, its error is
decided where the longest run of its scalar values ends that stands there: by another scalar value,
or by the error that a read gives there. -/
theorem literals_exact (grammar : Grammar) (inputs : List (String × Input)) :
    ∀ store, (start grammar inputs).store.Reaches store → ∀ i content s,
      (Input.contents inputs)[i]? = some content → store.Known s →
        store.Onward (Cursor.origin i) s → ∀ text : String,
          let bytes := Utf8.encode text.toList
          let ahead := content.bytes.drop s.position.offset
          ((∃ next, ((Parser.literal text s).run store).1 = .ok (.ok ((), next))) ↔
            bytes <+: ahead) ∧
          ((∃ next, ((Parser.literalBytes bytes s).run store).1 = .ok (.ok ((), next))) ↔
            bytes <+: ahead) ∧
          (∀ store', (start grammar inputs).store.Reaches store' → store'.Known s →
            ∀ next next', ((Parser.literal text s).run store).1 = .ok (.ok ((), next)) →
              ((Parser.literalBytes bytes s).run store').1 = .ok (.ok ((), next')) →
                next.anchor = next'.anchor ∧
                next.position.offset = s.position.offset + bytes.length ∧
                next'.position.offset = next.position.offset ∧
                next'.position.line = next.position.line) ∧
          (¬ bytes <+: ahead → (∀ conduct, content.ending ≠ .overclaimed conduct) →
            ∃ common c rest error, text.toList = common ++ c :: rest ∧
              Utf8.encode common <+: ahead ∧
              (∀ other, other <+: text.toList → Utf8.encode other <+: ahead →
                other <+: common) ∧
              ((Parser.literal text s).run store).1 = .ok (.error ⟨error, s⟩) ∧
              content.Refuses (s.position.pass common) c error) := by
  intro store hreaches i content s hcontent hknown honward text bytes ahead
  have hstands := stands_of_onward_origin hreaches hknown honward
  refine ⟨?_, ?_, ?_, ?_⟩
  · exact hstands.run_exactly_iff .runes hcontent
  · have hbytes : (∃ next, ((Parser.literalBytes bytes s).run store).1 = .ok (.ok ((), next))) ↔
        Reading.Exact.bytes.encode bytes <+: ahead :=
      hstands.run_exactly_iff .bytes hcontent
    rwa [Reading.Exact.encode_bytes] at hbytes
  · intro store' hreaches' hknown' next next' hnext hnext'
    have hstands' : Stands grammar inputs i store' s := ⟨hreaches', hknown', hstands.on⟩
    exact hstands.place_eq_of_literals hstands' hnext hnext'
  · intro hne hending
    exact hstands.exists_refuses hcontent hending hne

/-- The second scalar value of the text lies across two pieces.  Scalar values are compared before
anything else is read, bytes after one byte was read.  A longer text shares the first byte of its
third scalar value with a sequence that the end of the input cuts short. -/
theorem literals_exact_of_pieces :
    let inputs : List (String × Input) :=
      [("s", .streaming
        ⟨.supplier, [.deliver [0x61, 0xC3] false, .deliver [0xA9, 0xC3] true]⟩ default)]
    let first := (start ⟨[]⟩ inputs).store
    let later := ((start ⟨[]⟩ inputs).run [.byte "s" "t"]).2.store
    let s := Cursor.origin 0
    let after (column : Nat) : Cursor := ⟨some ⟨0, ⟨2, 1⟩⟩, ⟨3, 1, column⟩⟩
    let ahead : List UInt8 := [0x61, 0xC3, 0xA9, 0xC3]
    ((Parser.literal "aé" s).run first).1 = .ok (.ok ((), after 3)) ∧
      ((Parser.literalBytes (Utf8.encode ['a', 'é']) s).run later).1 = .ok (.ok ((), after 4)) ∧
      (after 3).anchor = (after 4).anchor ∧ (after 4).position.line = (after 3).position.line ∧
      ¬ Utf8.encode "aéé".toList <+: ahead ∧
      ((Parser.literal "aéé" s).run first).1 =
        .ok (.error ⟨.invalidEncoding ⟨3, 1, 3⟩, s⟩) ∧
      ∃ common c rest error, "aéé".toList = common ++ c :: rest ∧ Utf8.encode common <+: ahead ∧
        ((Parser.literal "aéé" s).run first).1 = .ok (.error ⟨error, s⟩) ∧
        Content.Refuses ⟨ahead, .ended⟩ (s.position.pass common) c error := by
  intro inputs first later s after ahead
  have hcontent : (Input.contents inputs)[0]? = some ⟨ahead, .ended⟩ := rfl
  obtain ⟨hlater, -⟩ := run_reaches (fresh_start ⟨[]⟩ inputs).known [.byte "s" "t"]
  have hstands : Stands ⟨[]⟩ inputs 0 first s := stands_origin .refl hcontent
  have hknown' : later.Known s := hlater.known hstands.known
  have hnext : ((Parser.literal "aé" s).run first).1 = .ok (.ok ((), after 3)) := by
    decide +kernel
  have hnext' : ((Parser.literalBytes (Utf8.encode ['a', 'é']) s).run later).1 =
      .ok (.ok ((), after 4)) := by decide +kernel
  have hne : ¬ Utf8.encode "aéé".toList <+: ahead := by decide +kernel
  have hliteral := literals_exact ⟨[]⟩ inputs first .refl 0 _ s hcontent hstands.known .refl
  obtain ⟨-, -, hplace, -⟩ := hliteral "aé"
  have hchars : "aé".toList = ['a', 'é'] := by simp
  rw [hchars] at hplace
  obtain ⟨hanchor, -, -, hline⟩ := hplace later hlater hknown' _ _ hnext hnext'
  obtain ⟨-, -, -, hrefused⟩ := hliteral "aéé"
  obtain ⟨common, c, rest, error, htext, hcommon, -, hfailed, hrefuses⟩ :=
    hrefused hne (by simp)
  exact ⟨hnext, hnext', hanchor, hline, hne, by decide +kernel, common, c, rest, error, htext,
    hcommon, hfailed, hrefuses⟩

end Session
end StreamParse
