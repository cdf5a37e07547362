import StreamParse.Proofs.Parser.Reference

/-!
# References are orderly

A reference takes its value from what lies after the position where it is entered, and within the
content.  If the content ends in a failure of the source, the reference comes to that failure or is
decided by the bytes before it.  And it comes to a fault only where a source overclaims or the
content is longer than any address.
-/

namespace StreamParse

namespace Reference

variable {α β γ : Type}

/-- What holds of every reference that is made up of reads. -/
structure Orderly (ref : Reference α) : Prop where
  advances : ∀ {view : Option Content} {p q : Position} {value : α},
    ref view p = .ok (.ok (value, q)) → p.offset ≤ q.offset
  within : ∀ {content : Content} {p q : Position} {value : α},
    p.offset ≤ content.bytes.length → ref (some content) p = .ok (.ok (value, q)) →
      q.offset ≤ content.bytes.length
  causal : ∀ {bytes : List UInt8} {content : Content} {p : Position} (failure : SourceFailure),
    bytes <+: content.bytes → p.offset ≤ bytes.length →
      (∃ q, ref (some ⟨bytes, .failed failure⟩) p =
        .ok (.error (.positioned q (.source failure)))) ∨
      ref (some content) p = ref (some ⟨bytes, .failed failure⟩) p
  total : ∀ {content : Content} {p : Position},
    (∀ conduct, content.ending ≠ .overclaimed conduct) →
      content.bytes.length < Parser.offsetLimit → p.offset ≤ content.bytes.length →
        ∃ parsed, ref (some content) p = .ok parsed

theorem succeed_orderly (value : α) : (succeed value).Orderly where
  advances h := by
    cases h
    exact Nat.le_refl _
  within hp h := by
    cases h
    exact hp
  causal _ _ _ := Or.inr rfl
  total _ _ _ := ⟨_, rfl⟩

theorem refuse_orderly (error : Error) : (refuse error : Reference α).Orderly where
  advances h := by cases h
  within _ h := by cases h
  causal _ _ _ := Or.inr rfl
  total _ _ _ := ⟨_, rfl⟩

theorem settle_orderly (result : Except Error α) : (settle result).Orderly := by
  cases result with
  | error error => exact refuse_orderly error
  | ok value => exact succeed_orderly value

theorem exists_of_bind_eq_ok
    {first : Reference α} {next : α → Reference β} {view : Option Content} {p q : Position}
    {value : β} (h : bind first next view p = .ok (.ok (value, q))) :
    ∃ a middle, first view p = .ok (.ok (a, middle)) ∧
      next a view middle = .ok (.ok (value, q)) := by
  rw [bind] at h
  rcases hfirst : first view p with fault | error | ⟨a, middle⟩
  · simp [hfirst] at h
  · simp [hfirst] at h
  · simp only [hfirst] at h
    exact ⟨a, middle, rfl, h⟩

theorem bind_orderly
    {first : Reference α} {next : α → Reference β} (hfirst : first.Orderly)
    (hnext : ∀ a, (next a).Orderly) : (bind first next).Orderly where
  advances h := by
    obtain ⟨a, middle, ha, hvalue⟩ := exists_of_bind_eq_ok h
    exact Nat.le_trans (hfirst.advances ha) ((hnext a).advances hvalue)
  within hp h := by
    obtain ⟨a, middle, ha, hvalue⟩ := exists_of_bind_eq_ok h
    exact (hnext a).within (hfirst.within hp ha) hvalue
  causal {bytes content p} failure hbytes hp := by
    rcases hfirst.causal failure hbytes hp with ⟨q, hq⟩ | heq
    · refine Or.inl ⟨q, ?_⟩
      rw [bind, hq]
    · rcases hfound : first (some ⟨bytes, .failed failure⟩) p with fault | error | ⟨a, middle⟩
      · exact Or.inr (by rw [bind, bind, heq, hfound])
      · exact Or.inr (by rw [bind, bind, heq, hfound])
      · rw [bind, bind, heq, hfound]
        exact (hnext a).causal failure hbytes (hfirst.within hp hfound)
  total {content p} hending hlength hp := by
    obtain ⟨parsed, hparsed⟩ := hfirst.total hending hlength hp
    rw [bind, hparsed]
    rcases parsed with error | ⟨a, middle⟩
    · exact ⟨_, rfl⟩
    · exact (hnext a).total hending hlength (hfirst.within hp hparsed)

theorem enter_orderly
    {next : Position → Reference α} (h : ∀ p, (next p).Orderly) : (enter next).Orderly where
  advances {_ p _ _} := (h p).advances
  within {_ p _ _} := (h p).within
  causal {_ _ p} := (h p).causal
  total {_ p} := (h p).total

theorem eq_ok_of_or_eq_ok
    {first second : Reference α} {view : Option Content} {p q : Position} {value : α}
    (h : or first second view p = .ok (.ok (value, q))) :
    first view p = .ok (.ok (value, q)) ∨ second view p = .ok (.ok (value, q)) := by
  rw [or] at h
  rcases hfound : first view p with fault | error | success
  · simp [hfound] at h
  · simp only [hfound] at h
    split at h
    · exact Or.inr h
    · cases h
  · simp only [hfound] at h
    exact Or.inl h

theorem or_orderly
    {first second : Reference α} (hfirst : first.Orderly) (hsecond : second.Orderly) :
    (or first second).Orderly where
  advances h := by
    rcases eq_ok_of_or_eq_ok h with hvalue | hvalue
    · exact hfirst.advances hvalue
    · exact hsecond.advances hvalue
  within hp h := by
    rcases eq_ok_of_or_eq_ok h with hvalue | hvalue
    · exact hfirst.within hp hvalue
    · exact hsecond.within hp hvalue
  causal {bytes content p} failure hbytes hp := by
    rcases hfirst.causal failure hbytes hp with ⟨q, hq⟩ | heq
    · exact Or.inl ⟨q, by rw [or, hq]; rfl⟩
    · rw [or, or, heq]
      rcases first (some ⟨bytes, .failed failure⟩) p with fault | error | success
      · exact Or.inr rfl
      · by_cases hsoft : error.fallsThrough
        · simp only [if_pos hsoft]
          exact hsecond.causal failure hbytes hp
        · simp only [if_neg hsoft]
          exact Or.inr trivial
      · exact Or.inr rfl
  total {content p} hending hlength hp := by
    obtain ⟨parsed, hparsed⟩ := hfirst.total hending hlength hp
    rw [or, hparsed]
    rcases parsed with error | success
    · by_cases hsoft : error.fallsThrough
      · simp only [if_pos hsoft]
        exact hsecond.total hending hlength hp
      · simp only [if_neg hsoft]
        exact ⟨_, rfl⟩
    · exact ⟨_, rfl⟩

/-! ## Reads -/

theorem reading_orderly {r : Reading α} (account : r.Account) :
    account.reference.Orderly where
  advances {view p q value} h := by
    cases view with
    | none => cases h
    | some content =>
        simp only [Reading.Account.reference] at h
        rcases hfound : account.find content p.offset with fault | halt | unit
        · simp [hfound, Except.map] at h
        · simp [hfound, Except.map] at h
        · simp only [hfound, Except.map] at h
          cases h
          rw [Position.offset_advance]
          exact Nat.le_add_right _ _
  within {content p q value} hp h := by
    simp only [Reading.Account.reference] at h
    rcases hfound : account.find content p.offset with fault | halt | unit
    · simp [hfound, Except.map] at h
    · simp [hfound, Except.map] at h
    · simp only [hfound, Except.map] at h
      cases h
      rw [Position.offset_advance]
      exact account.within hfound
  causal {bytes content p} failure hbytes hp := by
    simp only [Reading.Account.reference]
    rcases account.causal failure p.offset hbytes with hfailed | heq
    · exact Or.inl ⟨p, by rw [hfailed]; rfl⟩
    · exact Or.inr (by rw [heq])
  total hending _ _ := account.reference_total _ hending

theorem exactly_orderly
    [DecidableEq α] {r : Reading α} (account : r.Account) (expected : List α) :
    (exactly account expected).Orderly := by
  induction expected with
  | nil => exact succeed_orderly ()
  | cons unit rest ih =>
      refine bind_orderly (reading_orderly account) ?_
      intro found
      by_cases hsame : found = unit
      · simpa [hsame] using ih
      · simpa [hsame] using refuse_orderly .noMatch

theorem satisfying_orderly {r : Reading α} (account : r.Account) (accepts : α → Bool) :
    (satisfying account accepts).Orderly := by
  refine bind_orderly (reading_orderly account) ?_
  intro unit
  by_cases haccepts : accepts unit
  · simpa [haccepts] using succeed_orderly unit
  · simpa [haccepts] using refuse_orderly .noMatch

theorem eq_of_endOfInput_eq_ok
    {view : Option Content} {p q : Position} {value : Unit}
    (h : endOfInput view p = .ok (.ok (value, q))) : q = p := by
  rw [endOfInput] at h
  rcases hread : Reading.Account.bytes.reference view p with fault | error | success
  · simp [hread] at h
  · simp only [hread] at h
    split at h <;> cases h
    rfl
  · simp [hread] at h

theorem endOfInput_orderly : endOfInput.Orderly where
  advances h := by
    obtain rfl := eq_of_endOfInput_eq_ok h
    exact Nat.le_refl _
  within hp h := by
    obtain rfl := eq_of_endOfInput_eq_ok h
    exact hp
  causal {bytes content p} failure hbytes hp := by
    rcases (reading_orderly Reading.Account.bytes).causal failure hbytes hp with ⟨q, hq⟩ | heq
    · exact Or.inl ⟨q, by rw [endOfInput, hq]; rfl⟩
    · exact Or.inr (by rw [endOfInput, endOfInput, heq])
  total {content p} hending hlength hp := by
    obtain ⟨parsed, hparsed⟩ :=
      (reading_orderly Reading.Account.bytes).total hending hlength hp
    rw [endOfInput, hparsed]
    rcases parsed with error | success
    · by_cases hend : error = .endOfInput
      · simp only [if_pos hend]
        exact ⟨_, rfl⟩
      · simp only [if_neg hend]
        exact ⟨_, rfl⟩
    · exact ⟨_, rfl⟩

/-! ## Combinations -/

theorem sequence_orderly
    {first : Reference α} {second : Reference β} (combine : α → β → Except Cause γ)
    (hfirst : first.Orderly) (hsecond : second.Orderly) :
    (sequence first second combine).Orderly := by
  refine enter_orderly fun entry => bind_orderly hfirst fun a => bind_orderly hsecond fun b => ?_
  cases combine a b with
  | error cause => exact refuse_orderly _
  | ok value => exact succeed_orderly value

theorem map_orderly {ref : Reference α} (f : α → β) (h : ref.Orderly) : (map f ref).Orderly :=
  bind_orderly h fun value => succeed_orderly (f value)

theorem optional_orderly {ref : Reference α} (h : ref.Orderly) : (optional ref).Orderly :=
  or_orderly (map_orderly some h) (succeed_orderly none)

theorem collect_orderly {ref : Reference α} (h : ref.Orderly) (values : Array α) :
    Orderly (collect ref values) where
  advances {view p q value} hvalue := by
    fun_induction collect ref values view p with
    | case1 => cases hvalue
    | case2 =>
        cases hvalue
        exact Nat.le_refl _
    | case3 => cases hvalue
    | case4 values p value middle hfound hstop =>
        cases hvalue
        exact h.advances hfound
    | case5 => cases hvalue
    | case6 values p value middle hfound hmore hlimit ih =>
        exact Nat.le_trans (h.advances hfound) (ih hvalue)
  within {content p q value} hp hvalue := by
    fun_induction collect ref values (some content) p with
    | case1 => cases hvalue
    | case2 =>
        cases hvalue
        exact hp
    | case3 => cases hvalue
    | case4 values p value middle hfound hstop =>
        cases hvalue
        exact h.within hp hfound
    | case5 => cases hvalue
    | case6 values p value middle hfound hmore hlimit ih =>
        exact ih (h.within hp hfound) hvalue
  causal {bytes content p} failure hbytes hp := by
    -- The offset grows with every value that more can follow.
    induction hleft : Parser.offsetLimit - p.offset using Nat.strongRecOn
      generalizing p values with
    | ind left ih =>
        rcases h.causal failure hbytes hp with ⟨q, hq⟩ | heq
        · exact Or.inl ⟨q, by rw [collect, hq]; rfl⟩
        · rcases hfound : ref (some ⟨bytes, .failed failure⟩) p with
            fault | error | ⟨value, middle⟩
          · exact Or.inr (by rw [collect, collect, heq, hfound])
          · exact Or.inr (by rw [collect, collect, heq, hfound])
          · rw [collect, collect, heq, hfound]
            by_cases hstop : middle.offset ≤ p.offset
            · simp only [if_pos hstop]
              exact Or.inr trivial
            · simp only [if_neg hstop]
              by_cases hlimit : Parser.offsetLimit ≤ middle.offset
              · simp only [if_pos hlimit]
                exact Or.inr trivial
              · simp only [if_neg hlimit]
                exact ih (Parser.offsetLimit - middle.offset) (by omega) _
                  (h.within hp hfound) rfl
  total {content p} hending hlength hp := by
    fun_induction collect ref values (some content) p with
    | case1 values p fault hfound =>
        obtain ⟨parsed, hparsed⟩ := h.total hending hlength hp
        rw [hfound] at hparsed
        cases hparsed
    | case2 => exact ⟨_, rfl⟩
    | case3 => exact ⟨_, rfl⟩
    | case4 => exact ⟨_, rfl⟩
    | case5 values p value middle hfound hmore hlimit =>
        have hmiddle := h.within hp hfound
        omega
    | case6 values p value middle hfound hmore hlimit ih => exact ih (h.within hp hfound)

/-! ## Captures -/

theorem bytesFrom_orderly (start : Position) : (bytesFrom start).Orderly where
  advances {view p q value} h := by
    cases view <;> cases h
    exact Nat.le_refl _
  within hp h := by
    cases h
    exact hp
  causal {bytes content p} failure hbytes hp := by
    refine Or.inr ?_
    simp only [bytesFrom]
    rw [Content.between_of_isPrefix hbytes hp (.failed failure)]
  total _ _ _ := ⟨_, rfl⟩

theorem textFrom_orderly (start : Position) : (textFrom start).Orderly where
  advances {view p q value} h := by
    cases view with
    | none => cases h
    | some content =>
        have hsettle : settle (content.textBetween start p) (some content) p =
            .ok (.ok (value, q)) := h
        exact (settle_orderly _).advances hsettle
  within {content p _ _} hp h := (settle_orderly (content.textBetween start p)).within hp h
  causal {bytes content p} failure hbytes hp := by
    refine Or.inr ?_
    simp only [textFrom, Content.textBetween]
    rw [Content.between_of_isPrefix hbytes hp (.failed failure)]
    rfl
  total _ _ _ := ⟨_, rfl⟩

theorem positionsFrom_orderly (start : Position) : (positionsFrom start).Orderly where
  advances h := by
    cases h
    exact Nat.le_refl _
  within hp h := by
    cases h
    exact hp
  causal _ _ _ := Or.inr rfl
  total _ _ _ := ⟨_, rfl⟩

theorem capture_orderly
    {ref : Reference α} {taken : Position → Reference γ} (h : ref.Orderly)
    (htaken : ∀ start, (taken start).Orderly) : (capture taken ref).Orderly :=
  enter_orderly fun start => bind_orderly h fun _ => htaken start

/-! ## Digits -/

section

variable {ending : Ending} {accepts : UInt8 → Bool} {add : β → UInt8 → β} {bytes : List UInt8}
  {gathered gathered' : β} {p q : Position}

theorem offset_of_passing
    {error : Option Error}
    (h : passing ending accepts add bytes gathered p = .ok (gathered', q, error)) :
    p.offset ≤ q.offset ∧ q.offset ≤ p.offset + bytes.length := by
  induction bytes generalizing gathered p with
  | nil =>
      rw [passing] at h
      cases hstop : ending.stop .ended with
      | error fault => simp [hstop, Except.map] at h
      | ok halt =>
          simp only [hstop, Except.map] at h
          cases h
          simp
  | cons b rest ih =>
      rw [passing] at h
      by_cases haccepts : accepts b
      · rw [if_pos haccepts] at h
        have hoffset := ih h
        rw [Position.offset_advance] at hoffset
        rw [List.length_cons]
        omega
      · rw [if_neg haccepts] at h
        cases h
        simp

theorem passing_causal
    {bytes' : List UInt8} (hbytes : bytes <+: bytes') (failure : SourceFailure) :
    (∃ gathered' q, passing (.failed failure) accepts add bytes gathered p =
      .ok (gathered', q, some (.positioned q (.source failure)))) ∨
    passing ending accepts add bytes' gathered p =
      passing (.failed failure) accepts add bytes gathered p := by
  induction bytes generalizing bytes' gathered p with
  | nil => exact Or.inl ⟨gathered, p, rfl⟩
  | cons b rest ih =>
      obtain ⟨more, rfl⟩ := hbytes
      rw [List.cons_append, passing, passing]
      by_cases haccepts : accepts b
      · rw [if_pos haccepts, if_pos haccepts]
        exact ih (List.prefix_append rest more)
      · rw [if_neg haccepts, if_neg haccepts]
        exact Or.inr rfl

theorem passing_total (h : ∀ conduct, ending ≠ .overclaimed conduct) :
    ∃ passage, passing ending accepts add bytes gathered p = .ok passage := by
  induction bytes generalizing gathered p with
  | nil =>
      obtain ⟨halt, hhalt⟩ := Ending.stop_total h .ended
      exact ⟨_, by rw [passing, hhalt]; rfl⟩
  | cons b rest ih =>
      rw [passing]
      by_cases haccepts : accepts b
      · rw [if_pos haccepts]
        exact ih
      · rw [if_neg haccepts]
        exact ⟨_, rfl⟩

end

theorem exists_of_numeral_eq_ok
    {type : IntType} {negative : Bool} {entry p q : Position} {view : Option Content} {value : Int}
    (h : numeral type negative entry view p = .ok (.ok (value, q))) :
    ∃ digits error,
      Content.passage Numeral.isDigit (Numeral.push type negative) .zero view p =
        .ok (digits, q, error) := by
  rw [numeral] at h
  rcases hpassage : Content.passage Numeral.isDigit (Numeral.push type negative) .zero view p with
    fault | ⟨digits, middle, error⟩
  · simp [hpassage] at h
  · simp only [hpassage, settle] at h
    cases hverdict : digits.verdict type entry error with
    | error error' => simp [hverdict, Except.map] at h
    | ok number =>
        simp only [hverdict, Except.map] at h
        cases h
        exact ⟨digits, error, rfl⟩

theorem numeral_total
    (type : IntType) (negative : Bool) (entry p : Position) {content : Content}
    (h : ∀ conduct, content.ending ≠ .overclaimed conduct) :
    ∃ parsed, numeral type negative entry (some content) p = .ok parsed := by
  obtain ⟨⟨digits, q, error⟩, hpassage⟩ :
      ∃ passage, passing content.ending Numeral.isDigit (Numeral.push type negative)
        (content.bytes.drop p.offset) .zero p = .ok passage := passing_total h
  exact ⟨_, by rw [numeral, Content.passage, hpassage]; rfl⟩

theorem numeral_orderly (type : IntType) (negative : Bool) (entry : Position) :
    (numeral type negative entry).Orderly where
  advances {view p q value} h := by
    obtain ⟨digits, error, hpassage⟩ := exists_of_numeral_eq_ok h
    cases view with
    | none => cases hpassage
    | some content => exact (offset_of_passing hpassage).1
  within {content p q value} hp h := by
    obtain ⟨digits, error, hpassage⟩ := exists_of_numeral_eq_ok h
    have hoffset := (offset_of_passing hpassage).2
    rw [List.length_drop] at hoffset
    omega
  causal {bytes content p} failure hbytes hp := by
    have hdrop : bytes.drop p.offset <+: content.bytes.drop p.offset := by
      obtain ⟨more, hmore⟩ := hbytes
      rw [← hmore, List.drop_append_of_le_length hp]
      exact List.prefix_append _ _
    simp only [numeral, Content.passage]
    rcases passing_causal hdrop failure with ⟨digits, q, hfailed⟩ | heq
    · exact Or.inl ⟨q, by rw [hfailed]; rfl⟩
    · exact Or.inr (by rw [heq]; rfl)
  total hending _ _ := numeral_total type negative entry _ hending

theorem digits_orderly (type : IntType) : (digits type).Orderly :=
  enter_orderly fun entry => numeral_orderly type false entry

theorem verdict_of_hard
    {error : Error} (hhard : error.fallsThrough = false) (type : IntType) (entry : Position)
    (digits : Numeral) : digits.verdict type entry (some error) = .error error := by
  cases error with
  | endOfInput => cases hhard
  | noMatch => cases hhard
  | invalidEncoding position => rfl
  | positioned position cause => rfl

/-- Trouble with the byte at a position is trouble with the first digit there. -/
theorem numeral_of_read_error
    {view : Option Content} {p : Position} {error : Error}
    (hread : Reading.Account.bytes.reference view p = .ok (.error error))
    (hhard : error.fallsThrough = false) (type : IntType) (negative : Bool) (entry : Position) :
    numeral type negative entry view p = .ok (.error error) := by
  cases view with
  | none => cases hread
  | some content =>
      cases hdrop : content.bytes.drop p.offset with
      | cons b rest =>
          rw [Cursor.reference_bytes_of_drop hdrop] at hread
          cases hread
      | nil =>
          rw [Cursor.reference_bytes_of_drop hdrop] at hread
          simp only [numeral, Content.passage, hdrop, passing]
          cases hstop : content.ending.stop .ended with
          | error fault => simp [hstop, Except.map] at hread
          | ok halt =>
              simp only [hstop, Except.map] at hread
              cases hread
              simp only [Except.map, settle, verdict_of_hard hhard]

/-- After the first byte, or where there is none, a signed number is a numeral. -/
theorem exists_of_signedDigits_eq_ok
    {type : IntType} {p q : Position} {view : Option Content} {value : Int}
    (h : signedDigits type view p = .ok (.ok (value, q))) :
    ∃ negative middle, numeral type negative p view middle = .ok (.ok (value, q)) ∧
      (middle = p ∨
        ∃ b, Reading.Account.bytes.reference view p = .ok (.ok (b, middle))) := by
  simp only [signedDigits, enter] at h
  rcases hread : Reading.Account.bytes.reference view p with fault | error | ⟨b, middle⟩
  · simp [hread] at h
  · simp only [hread] at h
    exact ⟨false, p, h, Or.inl rfl⟩
  · simp only [hread] at h
    split at h
    · exact ⟨true, middle, h, Or.inr ⟨b, rfl⟩⟩
    · exact ⟨false, p, h, Or.inl rfl⟩

theorem signedDigits_orderly (type : IntType) : (signedDigits type).Orderly where
  advances {view p q value} h := by
    obtain ⟨negative, middle, hvalue, hmiddle⟩ := exists_of_signedDigits_eq_ok h
    have hle := (numeral_orderly type negative p).advances hvalue
    rcases hmiddle with rfl | ⟨b, hread⟩
    · exact hle
    · exact Nat.le_trans ((reading_orderly Reading.Account.bytes).advances hread) hle
  within {content p q value} hp h := by
    obtain ⟨negative, middle, hvalue, hmiddle⟩ := exists_of_signedDigits_eq_ok h
    refine (numeral_orderly type negative p).within ?_ hvalue
    rcases hmiddle with rfl | ⟨b, hread⟩
    · exact hp
    · exact (reading_orderly Reading.Account.bytes).within hp hread
  causal {bytes content p} failure hbytes hp := by
    rcases (reading_orderly Reading.Account.bytes).causal failure hbytes hp with ⟨q, hq⟩ | heq
    · -- The digits begin where the first byte should have been, and meet the same failure.
      refine Or.inl ⟨q, ?_⟩
      simp only [signedDigits, enter, hq]
      exact numeral_of_read_error hq rfl type false p
    · simp only [signedDigits, enter, heq]
      rcases hread : Reading.Account.bytes.reference (some ⟨bytes, .failed failure⟩) p with
        fault | error | ⟨b, middle⟩
      · exact Or.inr rfl
      · exact (numeral_orderly type false p).causal failure hbytes hp
      · have hmiddle := (reading_orderly Reading.Account.bytes).within hp hread
        by_cases hminus : b = 0x2D
        · simp only [if_pos hminus]
          exact (numeral_orderly type true p).causal failure hbytes hmiddle
        · simp only [if_neg hminus]
          exact (numeral_orderly type false p).causal failure hbytes hp
  total {content p} hending hlength hp := by
    obtain ⟨parsed, hparsed⟩ :=
      (reading_orderly Reading.Account.bytes).total hending hlength hp
    simp only [signedDigits, enter, hparsed]
    rcases parsed with error | ⟨b, middle⟩
    · exact (numeral_orderly type false p).total hending hlength hp
    · have hmiddle := (reading_orderly Reading.Account.bytes).within hp hparsed
      by_cases hminus : b = 0x2D
      · simp only [if_pos hminus]
        exact (numeral_orderly type true p).total hending hlength hmiddle
      · simp only [if_neg hminus]
        exact (numeral_orderly type false p).total hending hlength hp

end Reference
end StreamParse
