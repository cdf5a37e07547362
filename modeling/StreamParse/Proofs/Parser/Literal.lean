import StreamParse.Proofs.Parser.Refinement
import StreamParse.Proofs.Position
import StreamParse.Proofs.Cursor.Plain

/-!
# Matching units one by one

A literal is matched unit by unit.  Units of a reading are found exactly where their bytes stand, so
a literal is matched exactly where its bytes stand in the content, and otherwise it is refused after
the longest run of its units that stands there.  For a text, whose units have several bytes, the
unit after that run may be another one, or none at all.
-/

namespace StreamParse

/-- A reading whose units are found exactly where the bytes of their items stand. -/
structure Reading.Exact {α : Type} (r : Reading α) extends Reading.Itemized r where
  finds : ∀ {content : Content} {offset : Nat} {unit : α},
    (item unit).bytes <+: content.bytes.drop offset → account.find content offset = .ok (.ok unit)

namespace Reading.Exact

def bytes : Reading.bytes.Exact where
  toItemized := .bytes
  finds {content offset b} h := by
    have hhead : (content.bytes.drop offset)[0]? = some b := by
      obtain ⟨more, hmore⟩ := h
      rw [← hmore]
      rfl
    rw [List.getElem?_drop, Nat.add_zero] at hhead
    simp only [Itemized.bytes, Account.bytes, Content.byte, hhead]

def runes : Reading.runes.Exact where
  toItemized := .runes
  finds {content offset c} h := by
    simp only [Itemized.runes, Account.runes, Content.rune, Utf8.classify_eq_scalar_iff.2 h]

variable {α : Type} {r : Reading α} (exact : r.Exact) {content : Content} {p : Position}
  {bytes : List UInt8} {unit : α} {expected common rest : List α}

def encode (units : List α) : List UInt8 :=
  units.flatMap fun unit => (exact.item unit).bytes

def pass (r : Reading α) (p : Position) (units : List α) : Position :=
  units.foldl (fun p unit => p.advance (r.width unit) (r.code unit)) p

theorem encode_cons (unit : α) (units : List α) :
    exact.encode (unit :: units) = (exact.item unit).bytes ++ exact.encode units := rfl

theorem encode_append (units more : List α) :
    exact.encode (units ++ more) = exact.encode units ++ exact.encode more :=
  List.flatMap_append

theorem encode_bytes (units : List UInt8) : Exact.bytes.encode units = units :=
  List.flatMap_singleton' units

theorem encode_isPrefix (h : common <+: expected) :
    exact.encode common <+: exact.encode expected := by
  obtain ⟨more, rfl⟩ := h
  rw [encode_append]
  exact List.prefix_append _ _

theorem offset_pass (p : Position) (units : List α) :
    (pass r p units).offset = p.offset + (exact.encode units).length := by
  induction units generalizing p with
  | nil => rfl
  | cons unit units ih =>
      rw [pass, List.foldl_cons, ← pass, ih, Position.offset_advance, encode_cons,
        List.length_append, exact.width, Nat.add_assoc]

theorem exactly_append
    [DecidableEq α] (h : exact.encode common <+: content.bytes.drop p.offset) (rest : List α) :
    Reference.exactly exact.account (common ++ rest) (some content) p =
      Reference.exactly exact.account rest (some content) (pass r p common) := by
  induction common generalizing p with
  | nil => rfl
  | cons unit common ih =>
      rw [encode_cons] at h
      have hfound := exact.finds ((List.prefix_append _ _).trans h)
      have hcommon : exact.encode common <+:
          content.bytes.drop (p.advance (r.width unit) (r.code unit)).offset := by
        obtain ⟨more, hmore⟩ := h
        refine ⟨more, ?_⟩
        rw [Position.offset_advance, ← List.drop_drop, ← hmore, List.append_assoc,
          List.drop_left' (exact.width unit)]
      simp only [List.cons_append, Reference.exactly, Reference.bind, Account.reference, hfound,
        Except.map, if_true]
      exact ih hcommon

theorem exactly_of_isPrefix
    [DecidableEq α] (h : exact.encode expected <+: content.bytes.drop p.offset) :
    Reference.exactly exact.account expected (some content) p =
      .ok (.ok ((), pass r p expected)) := by
  have happend := exact.exactly_append h []
  rwa [List.append_nil] at happend

/-- If some units do not stand at the front of some bytes, there is a first one that does not. -/
theorem exists_common (h : ¬ exact.encode expected <+: bytes) :
    ∃ common unit rest, expected = common ++ unit :: rest ∧ exact.encode common <+: bytes ∧
      ¬ exact.encode (common ++ [unit]) <+: bytes := by
  induction expected using List.reverseRecOn with
  | nil => exact absurd List.nil_prefix h
  | append_singleton expected unit ih =>
      by_cases hinit : exact.encode expected <+: bytes
      · exact ⟨expected, unit, [], rfl, hinit, h⟩
      · obtain ⟨common, unit', rest, rfl, hcommon, hstop⟩ := ih hinit
        exact ⟨common, unit', rest ++ [unit], by simp, hcommon, hstop⟩

theorem isPrefix_common (hstop : ¬ exact.encode (common ++ [unit]) <+: bytes) {other : List α}
    (hother : other <+: common ++ unit :: rest) (hbytes : exact.encode other <+: bytes) :
    other <+: common := by
  have hrun : common ++ [unit] <+: common ++ unit :: rest := ⟨rest, by simp⟩
  rcases List.prefix_or_prefix_of_prefix hother hrun with hle | hge
  · rcases List.prefix_concat_iff.1 hle with rfl | hcommon
    · exact absurd hbytes hstop
    · exact hcommon
  · exact absurd ((exact.encode_isPrefix hge).trans hbytes) hstop

theorem find_ne_of_stop
    (hcommon : exact.encode common <+: content.bytes.drop p.offset)
    (hstop : ¬ exact.encode (common ++ [unit]) <+: content.bytes.drop p.offset) :
    exact.account.find content (pass r p common).offset ≠ .ok (.ok unit) := by
  intro hfound
  apply hstop
  obtain ⟨more, hmore⟩ := hcommon
  rw [encode_append, ← hmore, List.prefix_append_right_inj]
  have hbytes := exact.found hfound
  rw [exact.offset_pass, ← List.drop_drop, ← hmore, List.drop_left] at hbytes
  simpa [encode] using hbytes

/-- What is found in the place of the first unit that does not stand in the content decides the
outcome. -/
theorem exactly_of_stop
    [DecidableEq α] (hcommon : exact.encode common <+: content.bytes.drop p.offset)
    (hstop : ¬ exact.encode (common ++ [unit]) <+: content.bytes.drop p.offset) (rest : List α) :
    Reference.exactly exact.account (common ++ unit :: rest) (some content) p =
      (exact.account.find content (pass r p common).offset).map fun
        | .error halt => .error (halt.error (pass r p common))
        | .ok _ => .error .noMatch := by
  have hother := exact.find_ne_of_stop hcommon hstop
  rw [exact.exactly_append hcommon]
  simp only [Reference.exactly, Reference.bind, Account.reference]
  generalize exact.account.find content (pass r p common).offset = outcome at hother ⊢
  rcases outcome with fault | halt | found
  · rfl
  · rfl
  · have hne : found ≠ unit := by
      rintro rfl
      exact hother rfl
    simp only [Except.map, if_neg hne]
    rfl

theorem exactly_ne_ok
    [DecidableEq α] (h : ¬ exact.encode expected <+: content.bytes.drop p.offset)
    (success : Unit × Position) :
    Reference.exactly exact.account expected (some content) p ≠ .ok (.ok success) := by
  obtain ⟨common, unit, rest, rfl, hcommon, hstop⟩ := exact.exists_common h
  rw [exact.exactly_of_stop hcommon hstop]
  rcases exact.account.find content (pass r p common).offset with fault | halt | found
  · nofun
  · nofun
  · nofun

end Reading.Exact

/-- Why a scalar value is not found at a position: there is another one, or none can be read. -/
inductive Content.Refuses (content : Content) (p : Position) (c : Char) : Error → Prop
  | other {d : Char} :
    String.utf8EncodeChar d <+: content.bytes.drop p.offset → d ≠ c → Refuses content p c .noMatch
  | unread {error : Error} : content.Gives .rune p (.error error) → Refuses content p c error

/-- A text that does not stand in the content is refused after the longest run of its scalar values
that does, by what follows there. -/
theorem Content.exists_refuses
    {content : Content} {p : Position} {text : List Char}
    (h : ¬ Utf8.encode text <+: content.bytes.drop p.offset)
    (hending : ∀ conduct, content.ending ≠ .overclaimed conduct)
    (hle : p.offset ≤ content.bytes.length) :
    ∃ common c rest error, text = common ++ c :: rest ∧
      Utf8.encode common <+: content.bytes.drop p.offset ∧
      (∀ other, other <+: text → Utf8.encode other <+: content.bytes.drop p.offset →
        other <+: common) ∧
      Reference.exactly .runes text (some content) p = .ok (.error error) ∧
      content.Refuses (p.pass common) c error := by
  obtain ⟨common, c, rest, rfl, hcommon, hstop⟩ := Reading.Exact.runes.exists_common h
  have hexactly := Reading.Exact.runes.exactly_of_stop hcommon hstop rest
  have hother := Reading.Exact.runes.find_ne_of_stop hcommon hstop
  have hq : (p.pass common).offset ≤ content.bytes.length := by
    have hlength := hcommon.length_le
    rw [List.length_drop] at hlength
    rw [Position.offset_pass]
    exact Nat.add_le_of_le_sub' hle hlength
  refine ⟨common, c, rest, ?_⟩
  have hlongest : ∀ other, other <+: common ++ c :: rest →
      Utf8.encode other <+: content.bytes.drop p.offset → other <+: common :=
    fun other hrun hbytes => Reading.Exact.runes.isPrefix_common hstop hrun hbytes
  have hpass : Reading.Exact.pass .runes p common = p.pass common := rfl
  rw [hpass] at hexactly hother
  obtain ⟨found, hfound⟩ := Reading.Account.runes.total (p.pass common).offset hending
  have houtcome := hexactly.trans (congrArg (Except.map _) hfound)
  rcases found with halt | d
  · have hreference : Reading.Account.runes.reference (some content) (p.pass common) =
        .ok (.error (halt.error (p.pass common))) := congrArg (Except.map _) hfound
    refine ⟨halt.error (p.pass common), rfl, hcommon, hlongest, houtcome, .unread ?_⟩
    exact (faithful_runes hq).2 (congrArg (Except.map (coded .runes)) hreference)
  · refine ⟨.noMatch, rfl, hcommon, hlongest, houtcome, .other (isPrefix_of_rune hfound) ?_⟩
    rintro rfl
    exact hother hfound

end StreamParse
