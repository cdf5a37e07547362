import StreamParse.Proofs.TextSpan

/-!
# Reading an input as text

What a read of a scalar value gives is decided by a few bytes, often from several chunks.  Read from
the start of an input until the first error, the scalar values are those of the longest text that
the input as a whole begins with, and the error says whether the input is that text.
-/

namespace StreamParse

open Store

/-- Where the longest text of a content ends, a read of a scalar value gives an error: the content
ends as well, or it goes on with a malformed sequence or one that is cut short. -/
theorem Content.gives_of_longest
    {content : Content} {text : List Char} {p : Position} (hending : content.ending = .ended)
    (hlongest : Utf8.Longest content.bytes text)
    (hoffset : p.offset = (Utf8.encode text).length) :
    content.Gives .rune p
      (.error (if Utf8.encode text = content.bytes then .endOfInput else .invalidEncoding p)) := by
  obtain ⟨rest, hsplit, hrest⟩ := Utf8.longest_iff.1 hlongest
  have hdrop : content.bytes.drop p.offset = rest := by
    rw [hoffset, ← hsplit, List.drop_left]
  by_cases hwhole : Utf8.encode text = content.bytes
  · rw [if_pos hwhole]
    exact .runeEnded (by rw [hoffset, hwhole]) hending
  · rw [if_neg hwhole]
    have hne : rest ≠ [] := by
      rintro rfl
      exact hwhole (by rw [← hsplit, List.append_nil])
    have hlt : p.offset < content.bytes.length := by
      rw [← hdrop, ne_eq, List.drop_eq_nil_iff] at hne
      exact Nat.lt_of_not_le hne
    by_cases hopen : content.Open p.offset
    · exact .runeCut hlt hopen hending
    · refine .runeMalformed fun c => ?_
      rw [Content.Open, hdrop] at hopen
      rw [hdrop]
      refine ⟨hrest c, fun hbegins => hopen ⟨c, hbegins, ?_⟩⟩
      rintro rfl
      exact hrest c List.prefix_rfl

/-- Reading scalar values from a cursor until the first error decodes a byte string: it gives the
longest text that the string begins with, and the error tells whether this text is all of it. -/
structure Cursor.Decodes (entry : Cursor) (store : Store) (bytes : List UInt8) (text : List Char)
    (last : Cursor) (error : Error) (store' : Store) : Prop where
  longest : Utf8.Longest bytes text
  reads : ∃ store₁, Cursor.Through .runes entry store text last store₁ ∧
    last.rune.run store₁ = (.ok (.error error), store')
  offset : last.position.offset = (Utf8.encode text).length
  stops : error =
    if Utf8.encode text = bytes then .endOfInput else .invalidEncoding last.position

namespace Cursor.Decodes

variable {entry last : Cursor} {store store' : Store} {bytes : List UInt8} {text other : List Char}
  {error : Error}

/-- A text is given back by its encoding. -/
theorem of_encode (h : entry.Decodes store bytes text last error store')
    (hbytes : bytes = Utf8.encode other) : text = other ∧ error = .endOfInput := by
  have htext : text = other := h.longest.eq (hbytes ▸ Utf8.longest_encode other)
  exact ⟨htext, by rw [h.stops, htext, if_pos hbytes.symm]⟩

/-- What is misencoded or cut off stops the reading at its first byte. -/
theorem of_malformed (h : entry.Decodes store bytes text last error store')
    {bad more : List UInt8} (hbytes : bytes = Utf8.encode other ++ (bad ++ more))
    (hbad : Utf8.Misencoded bad ∨ Utf8.Truncated bad more) :
    text = other ∧ error = .invalidEncoding last.position := by
  have hstops : Utf8.Longest (Utf8.encode other ++ (bad ++ more)) other ∧
      Utf8.encode other ≠ Utf8.encode other ++ (bad ++ more) :=
    Utf8.longest_of_malformed hbad
  rw [← hbytes] at hstops
  obtain ⟨hlongest, hne⟩ := hstops
  have htext : text = other := h.longest.eq hlongest
  exact ⟨htext, by rw [h.stops, htext, if_neg hne]⟩

end Cursor.Decodes

namespace Cursor

variable {store : Store} {i : Nat} {entry : Cursor} {content : Content}

theorem exists_run_read_of_gives
    {α : Type} {r : Reading α} (account : r.Account) (hfaithful : Content.Faithful account)
    (hsees : store.Sees i (some content) entry) {error : Error}
    (hgives : content.Gives r.grain entry.position (.error error)) :
    ∃ store', (entry.read r).run store = (.ok (.error error), store') := by
  have hread := account.comes_read hsees
  have hreference := (hfaithful (offset_le_of_sees hsees)).1 hgives
  generalize account.reference (some content) entry.position = outcome at hread hreference
  rcases outcome with fault | error' | success
  · cases hreference
  · obtain rfl : error' = error := Except.error.inj (Except.ok.inj hreference)
    generalize (entry.read r).run store = result at hread ⊢
    cases hread with
    | error => exact ⟨_, rfl⟩
  · cases hreference

/-- From the start of an input that ends without a failure, reading decodes the content, and so does
a traversal without limit. -/
theorem exists_decodes
    (hsees : store.Sees i (some content) entry) (hentry : entry.position.offset = 0)
    (hending : content.ending = .ended) :
    ∃ text last error store', entry.Decodes store content.bytes text last error store' ∧
      (entry.readUpTo .runes none).run store =
        (.ok ⟨text.toArray, last, some error⟩, store') := by
  obtain ⟨text, hlongest⟩ := Utf8.exists_longest content.bytes
  have hprefix : Utf8.encode text <+: content.bytes.drop entry.position.offset := by
    rw [hentry, List.drop_zero]
    exact hlongest.isPrefix
  obtain ⟨last, store₁, hthrough, -, -, hsees₁⟩ := exists_through hsees hprefix
  have hoffset : last.position.offset = (Utf8.encode text).length := by
    rw [hthrough.position_eq, Position.offset_pass, hentry, Nat.zero_add]
  have hgives := content.gives_of_longest hending hlongest hoffset
  generalize herror : (if Utf8.encode text = content.bytes then Error.endOfInput
    else .invalidEncoding last.position) = error at hgives
  obtain ⟨store', hread⟩ :=
    exists_run_read_of_gives .runes Content.faithful_runes hsees₁ hgives
  refine ⟨text, last, error, store',
    ⟨hlongest, ⟨store₁, hthrough, hread⟩, hoffset, herror.symm⟩, ?_⟩
  simp only [readUpTo]
  rw [hthrough.traverse_eq Char.utf8Size_pos (fun _ _ _ => rfl) (fun _ => rfl), traverse_eq,
    if_pos rfl]
  have hunits : text.foldl Array.push #[] = text.toArray := by simp
  simp only [hread, hunits]

end Cursor

namespace Session

variable {grammar : Grammar} {inputs : List (String × Input)} {store : Store} {i : Nat}
  {content : Content}

/-- Reading an input that ends without a failure decodes its content. -/
theorem exists_decodes
    (hreaches : (start grammar inputs).store.Reaches store)
    (hcontent : (Input.contents inputs)[i]? = some content) (hending : content.ending = .ended) :
    ∃ text last error store',
      (Cursor.origin i).Decodes store content.bytes text last error store' ∧
        ((Cursor.origin i).readUpTo .runes none).run store =
          (.ok ⟨text.toArray, last, some error⟩, store') := by
  have hsees := (stands_origin hreaches hcontent).sees hcontent (by simp [hending])
  exact Cursor.exists_decodes hsees rfl hending

theorem step_runes
    {session : Session} {source target : String} {cursor last : Cursor} {text : List Char}
    {error : Error} {store' : Store} (hsource : session.registers.get? source = some cursor)
    (hrun : (cursor.readUpTo .runes none).run session.store =
      (.ok ⟨text.toArray, last, some error⟩, store')) :
    session.step (.runes source target none) =
      (.textRead (String.ofList text) (some error) last.position,
        { session with registers := session.registers.set target last, store := store' }) := by
  simp only [step, Operation.perform, Operation.several, Registers.cursor, hsource,
    Action.run_bind, Action.run_pure, hrun]

/-- Reading scalar values until the first error yields the longest text.  Whatever was read before
and however an input comes in pieces, as long as it ends without a failure: what is read from its
start is the longest text that the input begins with, and the error is the end of input if this text
is all of it, and otherwise points after the text.  So a text is given back by its encoding, and
sequences that are misencoded or cut off stop the reading at their first byte.  So it is with the
registers of a session after any operations. -/
theorem runes_decoded (grammar : Grammar) (inputs : List (String × Input)) :
    (∀ store, (start grammar inputs).store.Reaches store → ∀ i content,
      (Input.contents inputs)[i]? = some content → content.ending = .ended →
        ∃ text last error store',
          (Cursor.origin i).Decodes store content.bytes text last error store' ∧
          ((Cursor.origin i).readUpTo .runes none).run store =
            (.ok ⟨text.toArray, last, some error⟩, store') ∧
          (∀ other, content.bytes = Utf8.encode other → text = other ∧ error = .endOfInput) ∧
          ∀ other bad more, content.bytes = Utf8.encode other ++ (bad ++ more) →
            Utf8.Misencoded bad ∨ Utf8.Truncated bad more →
              text = other ∧ error = .invalidEncoding last.position) ∧
    ∀ operations : List Operation,
      let session := ((start grammar inputs).run operations).2
      ∀ source target i content, session.registers.get? source = some (Cursor.origin i) →
        (Input.contents inputs)[i]? = some content → content.ending = .ended →
          ∃ text last error store',
            (Cursor.origin i).Decodes session.store content.bytes text last error store' ∧
            session.step (.runes source target none) =
              (.textRead (String.ofList text) (some error) last.position,
                { session with
                  registers := session.registers.set target last, store := store' }) := by
  constructor
  · intro store hreaches i content hcontent hending
    obtain ⟨text, last, error, store', hdecodes, hrun⟩ :=
      exists_decodes hreaches hcontent hending
    refine ⟨text, last, error, store', hdecodes, hrun, ?_, ?_⟩
    · intro other hbytes
      exact hdecodes.of_encode hbytes
    · intro other bad more hbytes hbad
      exact hdecodes.of_malformed hbytes hbad
  · intro operations session source target i content hsource hcontent hending
    obtain ⟨hreaches, -⟩ := run_reaches (fresh_start grammar inputs).known operations
    obtain ⟨text, last, error, store', hdecodes, hrun⟩ :=
      exists_decodes hreaches hcontent hending
    exact ⟨text, last, error, store', hdecodes, step_runes hsource hrun⟩

/-- A sequence of three bytes lies across three pieces, and after it comes a surrogate.  One byte of
the input was read before. -/
theorem runes_decoded_of_surrogate :
    let inputs : List (String × Input) :=
      [("s", .streaming ⟨.supplier,
        [.deliver [0x61, 0xE2] false, .deliver [0x82] false, .deliver [0xAC, 0xED, 0xA0] false,
          .deliver [0x80] true]⟩ default)]
    let session := ((start ⟨[]⟩ inputs).run [.byte "s" "t"]).2
    let error : Error := .invalidEncoding ⟨4, 1, 3⟩
    (Input.contents inputs)[0]? =
        some ⟨Utf8.encode ['a', '€'] ++ (Utf8.form 3 0xD800 ++ []), .ended⟩ ∧
      Utf8.Misencoded (Utf8.form 3 0xD800) ∧
        ∃ last store', last.position = ⟨4, 1, 3⟩ ∧
          (Cursor.origin 0).Decodes session.store (Utf8.encode ['a', '€'] ++ Utf8.form 3 0xD800)
            ['a', '€'] last error store' ∧
          session.step (.runes "s" "u" none) = (.textRead "a€" (some error) ⟨4, 1, 3⟩,
            { session with registers := session.registers.set "u" last, store := store' }) := by
  intro inputs session error
  have hcontent : (Input.contents inputs)[0]? =
      some ⟨Utf8.encode ['a', '€'] ++ (Utf8.form 3 0xD800 ++ []), .ended⟩ := rfl
  have hbad : Utf8.Misencoded (Utf8.form 3 0xD800) := .surrogate (by decide) (by decide)
  have hsource : session.registers.get? "s" = some (Cursor.origin 0) := by decide +kernel
  obtain ⟨hreaches, -⟩ := run_reaches (fresh_start ⟨[]⟩ inputs).known [.byte "s" "t"]
  obtain ⟨text, last, raised, store', hdecodes, hrun, -, hmalformed⟩ :=
    (runes_decoded ⟨[]⟩ inputs).1 session.store hreaches 0 _ hcontent rfl
  obtain ⟨rfl, rfl⟩ := hmalformed ['a', '€'] (Utf8.form 3 0xD800) [] rfl (Or.inl hbad)
  have hposition : last.position = ⟨4, 1, 3⟩ := by
    obtain ⟨store₁, hthrough, -⟩ := hdecodes.reads
    exact hthrough.position_eq
  have hstep : session.step (.runes "s" "u" none) =
      (.textRead "a€" (some (.invalidEncoding last.position)) last.position,
        { session with registers := session.registers.set "u" last, store := store' }) :=
    step_runes hsource hrun
  rw [hposition] at hdecodes hstep
  exact ⟨hcontent, hbad, last, store', hposition, hdecodes, hstep⟩

end Session
end StreamParse
