import OrderBookServer.JsonScan

/-!
What one call of each reader does to the position and to the validity flag, from a position
in the text or behind it: a scan, a token, a turn of a loop, a value.
-/
namespace OrderBookServer.JsonParse

variable {δ α β : Type} {input : Input} {p q : ℕ} {s s' : ParseState}

/-- From `p` on the scan for a value only passes characters up to the end of the text. -/
def Blocked (input : Input) (p : ℕ) : Prop :=
  p < input.size ∧ ∀ j, p ≤ j → j < input.size → (input.startsValue j || input.closes j) = false

/-- A position inside an array from which the scan for a value comes to a closing brace or
to the end of the text. -/
def Stuck (input : Input) (p : ℕ) : Prop :=
  p < input.size ∧ input.byte p ≠ ']' ∧ (Blocked input p ∨
    ∃ q, p ≤ q ∧ q < input.size ∧ input.byte q = '}' ∧
      ∀ j, p ≤ j → j < q → (input.startsValue j || input.closes j) = false)

/-- A valid reader stands in the text. An invalid one is past it, or blocked. -/
def Placed (input : Input) (p : ℕ) (s : ParseState) : Prop :=
  (s.isValid = true → p ≤ input.size) ∧ (s.isValid = false → input.size ≤ p ∨ Blocked input p)

/-- Nothing was recorded in between. -/
def SameLog (s s' : ParseState) : Prop := s'.heads = s.heads ∧ s'.turns = s.turns

section Bytes

theorem Blocked.mono (h : Blocked input p) (hpq : p ≤ q) (hq : q < input.size) :
    Blocked input q := ⟨hq, fun j hj hlt => h.2 j (by omega) hlt⟩

theorem byte_size : input.byte input.size = '\x00' := by
  have hnone : input.text[input.size]? = none := List.getElem?_eq_none (Nat.le_refl _)
  simp only [Input.byte, hnone, if_true]

theorem lt_size_of_byte_ne (hp : p ≤ input.size) (hbyte : input.byte p ≠ '\x00') :
    p < input.size := by
  by_contra hge
  have heq : p = input.size := by omega
  rw [heq] at hbyte
  exact hbyte byte_size

/-- A keyword begins with its first character. -/
theorem byte_of_wordAt {c : Char} {word : Text} {follows : Char → Bool}
    (h : input.wordAt (c :: word) follows p = true) :
    input.byte p = c ∧ p + (c :: word).length < input.size := by
  simp only [Input.wordAt, Bool.and_eq_true, decide_eq_true_eq] at h
  obtain ⟨⟨hlt, _⟩, hprefix⟩ := h
  obtain ⟨rest, hdrop⟩ := List.isPrefixOf_iff_prefix.mp hprefix
  exact ⟨Input.byte_of_drop hdrop.symm, hlt⟩

theorem booleanAt_true (h : input.booleanAt p = some true) :
    input.byte p = 't' ∧ p + 4 < input.size := by
  unfold Input.booleanAt at h
  split at h
  · rename_i hword
    exact byte_of_wordAt hword
  · split at h
    · cases h
    · cases h

theorem booleanAt_false (h : input.booleanAt p = some false) :
    input.byte p = 'f' ∧ p + 5 < input.size := by
  unfold Input.booleanAt at h
  split at h
  · cases h
  · split at h
    · rename_i hword
      exact byte_of_wordAt hword
    · cases h

theorem nullAt_true (h : input.nullAt p = true) : input.byte p = 'n' ∧ p + 4 < input.size :=
  byte_of_wordAt h

theorem startsValue_nul (h : input.byte p = '\x00') : input.startsValue p = false := by
  have hboolean : input.booleanAt p = none := by
    cases hb : input.booleanAt p with
    | none => rfl
    | some b =>
      cases b with
      | true =>
        rw [(booleanAt_true hb).1] at h
        cases h
      | false =>
        rw [(booleanAt_false hb).1] at h
        cases h
  have hnull : input.nullAt p = false := by
    cases hn : input.nullAt p with
    | false => rfl
    | true =>
      rw [(nullAt_true hn).1] at h
      cases h
  simp [Input.startsValue, h, hboolean, hnull, isNumber]

end Bytes

section Scanners

variable {stop : ℕ → Parser Bool} {f : ℕ → Bool}

theorem SameLog.refl (s : ParseState) : SameLog s s := ⟨rfl, rfl⟩

theorem SameLog.trans {s₁ s₂ s₃ : ParseState} (h : SameLog s₁ s₂) (h' : SameLog s₂ s₃) :
    SameLog s₁ s₃ := ⟨h'.1.trans h.1, h'.2.trans h.2⟩

theorem charAt_eq (input : Input) (i : ℕ) (s : ParseState) :
    ∃ s', charAt input i s = .ok (input.byte i) s' ∧ SameLog s s' ∧ s'.isValid = s.isValid :=
  ⟨_, rfl, ⟨rfl, rfl⟩, rfl⟩

theorem Peeks.run {limit : ℕ} {x : Parser α} {a : α} (h : Peeks limit x a) (s : ParseState) :
    ∃ s', x s = .ok a s' ∧ SameLog s s' ∧ s'.isValid = s.isValid ∧
      s'.reach ≤ max s.reach limit := by
  obtain ⟨r, hok, hr⟩ := h s
  exact ⟨_, hok, ⟨rfl, rfl⟩, rfl, hr⟩

/-- What a scan does to the position and to the flag, and how far it reads. -/
theorem scan_run (input : Input) (limit : ℕ) (stop : ℕ → Parser Bool) (f : ℕ → Bool) (p : ℕ)
    (hstop : ∀ i, i = p ∨ i < input.size → Peeks limit (stop i) (f i))
    (s : ParseState) : ∃ q exceeded s', scan input stop p s = .ok (q, exceeded) s' ∧
      SameLog s s' ∧ s'.reach ≤ max s.reach limit ∧ p ≤ q ∧
      (∀ j, p ≤ j → j < q → f j = false) ∧
      ((exceeded = false ∧ f q = true ∧ (q = p ∨ q < input.size) ∧ s'.isValid = s.isValid) ∨
        (exceeded = true ∧ input.size ≤ q ∧ (q = p + 1 ∨ p < q ∧ q = input.size) ∧
          s'.isValid = false)) := by
  obtain ⟨q, hle, hpassed, hend⟩ := scan_cases fun i (_ : p ≤ i) hi _ => hstop i hi
  rcases hend with ⟨hmet, hq, hpeeks⟩ | ⟨hsize, hq, hover⟩
  · obtain ⟨r, hok, hr⟩ := hpeeks s
    exact ⟨q, false, _, hok, ⟨rfl, rfl⟩, hr, hle, hpassed, Or.inl ⟨rfl, hmet, hq, rfl⟩⟩
  · obtain ⟨r, hok, hr⟩ := hover s
    exact ⟨q, true, _, hok, ⟨rfl, rfl⟩, hr, hle, hpassed, Or.inr ⟨rfl, hsize, hq, rfl⟩⟩

theorem scanChar_run (input : Input) (stop : Char → Bool) (p : ℕ) (s : ParseState) :
    ∃ q exceeded s', scanChar input stop p s = .ok (q, exceeded) s' ∧ SameLog s s' ∧
      s'.reach ≤ max s.reach (max input.size p + 1) ∧ p ≤ q ∧
      (∀ j, p ≤ j → j < q → stop (input.byte j) = false) ∧
      ((exceeded = false ∧ stop (input.byte q) = true ∧ (q = p ∨ q < input.size) ∧
          s'.isValid = s.isValid) ∨
        (exceeded = true ∧ input.size ≤ q ∧ (q = p + 1 ∨ p < q ∧ q = input.size) ∧
          s'.isValid = false)) :=
  scan_run input _ _ (fun i => stop (input.byte i)) p
    (fun i hi => (peeks_charAt (by omega)).map stop) s

/-- A piece of the text is cut out, or the end is out of range. -/
theorem getSubString_run (input : Input) (start stop : ℕ) (s : ParseState) :
    (stop ≤ input.size ∧ ∃ text, getSubString input start stop s = .ok text s) ∨
      getSubString input start stop s = .error .outOfRange s := by
  unfold getSubString
  by_cases hstop : stop ≤ input.size
  · rw [if_pos hstop]
    exact Or.inl ⟨hstop, _, rfl⟩
  · rw [if_neg hstop]
    exact Or.inr rfl

/-- A reader of one token from a position in the text: it fails, or it lands at a position
in the text, or it lands behind the text and is not valid. -/
def Lands (input : Input) (l : ℕ) (s : ParseState)
    (r : EStateM.Result Abort ParseState (α × ℕ)) : Prop :=
  (∃ s', r = .error .outOfRange s' ∧ SameLog s s') ∨
    ∃ a q s', r = .ok (a, q) s' ∧ SameLog s s' ∧ l ≤ q ∧
      ((s'.isValid = s.isValid ∧ q ≤ input.size) ∨ (s'.isValid = false ∧ input.size ≤ q))

theorem parseValueString_lands (input : Input) (p : ℕ) (s : ParseState) :
    Lands input p s (parseValueString input p s) := by
  obtain ⟨q, exceeded, s₁, hscan, hlog, _, hle, _, hend⟩ :=
    scanChar_run input (fun c => c == '"') p s
  have hrun : parseValueString input p s =
      (getSubString input p q >>= fun value => pure (value, q + 1)) s₁ := bind_ok hscan
  rw [hrun]
  rcases getSubString_run input p q s₁ with ⟨hq, text, hsub⟩ | hsub
  · refine Or.inr ⟨text, q + 1, s₁, by rw [bind_ok hsub]; rfl, hlog, by omega, ?_⟩
    rcases hend with ⟨_, hmet, hin, hvalid⟩ | ⟨_, hsize, _, hvalid⟩
    · have hlt : q < input.size := by
        refine lt_size_of_byte_ne hq fun hnul => ?_
        rw [hnul] at hmet
        cases hmet
      exact Or.inl ⟨hvalid, hlt⟩
    · exact Or.inr ⟨hvalid, by omega⟩
  · exact Or.inl ⟨s₁, by rw [bind_error hsub], hlog⟩

theorem not_blocked_of_byte (hpq : p ≤ q) (hq : q < input.size)
    (hbyte : input.byte q = '"' ∨ input.byte q = '}') : ¬ Blocked input p := by
  intro hblocked
  have hstop := hblocked.2 q hpq hq
  rcases hbyte with hbyte | hbyte
  · simp [Input.startsValue, hbyte] at hstop
  · simp [Input.closes, hbyte] at hstop

/-- A key is behind the position. From a blocked position there is none in the text. -/
theorem parseKey_lands (input : Input) (hp : p ≤ input.size) (s : ParseState) :
    Lands input (p + 1) s (parseKey input p s) ∧ (Blocked input p → ∀ key q s',
      parseKey input p s = .ok (key, q) s' → s'.isValid = false ∧ input.size ≤ q) := by
  obtain ⟨q, exceeded, s₁, hscan, hlog, _, hle, _, hend⟩ :=
    scanChar_run input (fun c => c == '"' || c == '}') p s
  obtain ⟨s₂, hchar, hlog₂, hvalid₂⟩ := charAt_eq input q s₁
  -- Behind the opening quote a key is read as a string is.
  have hrun : parseKey input p s = (if input.byte q == '}' then pure (['}'], q + 1)
      else parseValueString input (q + 1)) s₂ := (bind_ok hscan).trans (bind_ok hchar)
  have hlogs := hlog.trans hlog₂
  have hfree : exceeded = false → q < input.size ∧ s₂.isValid = s.isValid ∧ ¬ Blocked input p ∧
      (input.byte q = '"' ∨ input.byte q = '}') := by
    intro hstopped
    rcases hend with ⟨_, hmet, hin, hvalid⟩ | ⟨hexceeded, _⟩
    · rw [Bool.or_eq_true, beq_iff_eq, beq_iff_eq] at hmet
      have hlt : q < input.size := by
        refine lt_size_of_byte_ne (by omega) fun hnul => ?_
        rw [hnul] at hmet
        exact absurd hmet (by decide)
      exact ⟨hlt, hvalid₂.trans hvalid, not_blocked_of_byte hle hlt hmet, hmet⟩
    · rw [hexceeded] at hstopped
      cases hstopped
  have hpast : exceeded = true → input.size ≤ q ∧ s₂.isValid = false := by
    intro hexceeded
    rcases hend with ⟨hstopped, _⟩ | ⟨_, hsize, _, hvalid⟩
    · rw [hexceeded] at hstopped
      cases hstopped
    · exact ⟨hsize, hvalid₂.trans hvalid⟩
  rw [hrun]
  by_cases hbrace : input.byte q == '}'
  · -- The scan ends at a brace: the key is the text of a brace.
    rw [if_pos hbrace]
    cases exceeded with
    | false =>
      obtain ⟨hlt, hvalid, hblocked, _⟩ := hfree rfl
      exact ⟨Or.inr ⟨_, q + 1, s₂, rfl, hlogs, by omega, Or.inl ⟨hvalid, hlt⟩⟩,
        fun hb => absurd hb hblocked⟩
    | true =>
      obtain ⟨hsize, hvalid⟩ := hpast rfl
      refine ⟨Or.inr ⟨_, q + 1, s₂, rfl, hlogs, by omega, Or.inr ⟨hvalid, by omega⟩⟩, ?_⟩
      intro _ key q' s' hok
      cases hok
      exact ⟨hvalid, by omega⟩
  · rw [if_neg hbrace]
    rcases parseValueString_lands input (q + 1) s₂ with
      ⟨s₃, hkey, hlog₃⟩ | ⟨key, stop, s₃, hkey, hlog₃, hle', hend'⟩
    · refine ⟨Or.inl ⟨s₃, hkey, hlogs.trans hlog₃⟩, ?_⟩
      intro _ key q' s' hok
      rw [hkey] at hok
      cases hok
    · cases exceeded with
      | false =>
        obtain ⟨_, hvalid, hblocked, _⟩ := hfree rfl
        rw [hvalid] at hend'
        exact ⟨Or.inr ⟨key, stop, s₃, hkey, hlogs.trans hlog₃, by omega, hend'⟩,
          fun hb => absurd hb hblocked⟩
      | true =>
        obtain ⟨hsize, hvalid⟩ := hpast rfl
        have hbehind : s₃.isValid = false ∧ input.size ≤ stop := by
          refine ⟨?_, by omega⟩
          rcases hend' with ⟨hsame, _⟩ | ⟨hinvalid, _⟩
          · exact hsame.trans hvalid
          · exact hinvalid
        refine ⟨Or.inr ⟨key, stop, s₃, hkey, hlogs.trans hlog₃, by omega, Or.inr hbehind⟩, ?_⟩
        intro _ key' q' s' hok
        rw [hkey] at hok
        cases hok
        exact hbehind

end Scanners

section Branches

variable [CharConv δ]

/-- A number whose digits lie in the text is read, or is null if it is out of range. -/
theorem parseValueNumber_ok {exceeded : Bool} (hq : q ≤ input.size)
    (hscan : scan input (numberStop input) p s = .ok (q, exceeded) s') :
    ∃ res : Json δ, parseValueNumber input p s = .ok (res, q) s' := by
  have hsub : getSubString input p q s' = .ok ((input.text.drop p).take (q - p)) s' := by
    unfold getSubString
    rw [if_pos hq]
    rfl
  unfold parseValueNumber
  rw [bind_ok hscan]
  simp only [bind_ok hsub]
  by_cases hpoint : ((input.text.drop p).take (q - p)).contains '.'
  · rw [if_pos hpoint]
    cases CharConv.fromChars (δ := δ) ((input.text.drop p).take (q - p)) with
    | some x => exact ⟨_, rfl⟩
    | none => exact ⟨_, rfl⟩
  · rw [if_neg hpoint]
    cases int64FromChars ((input.text.drop p).take (q - p)) with
    | some x => exact ⟨_, rfl⟩
    | none => exact ⟨_, rfl⟩

theorem parseValueNumber_lands (hnumber : isNumber (input.byte p) = true) (s : ParseState) :
    Lands input (p + 1) s (parseValueNumber input p s : EStateM.Result _ _ (Json δ × ℕ)) := by
  obtain ⟨q, exceeded, s₁, hscan, hlog, _, hle, _, hend⟩ :=
    scan_run input (input.size + p + 2) (numberStop input) (fun i => !input.takesNumber i) p
      (fun i hi => peeks_numberStop (by omega) fun _ => by omega) s
  by_cases hq : q ≤ input.size
  · obtain ⟨res, hrun⟩ := parseValueNumber_ok (δ := δ) hq hscan
    rcases hend with ⟨_, hmet, hin, hvalid⟩ | ⟨_, hsize, hlt, hvalid⟩
    · have hne : q ≠ p := by
        intro heq
        simp [heq, Input.takesNumber, hnumber] at hmet
      exact Or.inr ⟨res, q, s₁, hrun, hlog, by omega, Or.inl ⟨hvalid, hq⟩⟩
    · exact Or.inr ⟨res, q, s₁, hrun, hlog, by omega, Or.inr ⟨hvalid, hsize⟩⟩
  · have hsub : getSubString input p q s₁ = .error .outOfRange s₁ := by
      unfold getSubString
      rw [if_neg hq]
      rfl
    exact Or.inl ⟨s₁, (bind_ok hscan).trans (bind_error hsub), hlog⟩

variable {object array : ℕ → Parser (Json δ × ℕ)} {start : ℕ}

theorem booleanAt_of_closes (hclose : input.closes p = true) : input.booleanAt p = none := by
  unfold Input.closes at hclose
  rw [Bool.or_eq_true, beq_iff_eq, beq_iff_eq] at hclose
  cases hb : input.booleanAt p with
  | none => rfl
  | some b =>
    cases b with
    | true =>
      rw [(booleanAt_true hb).1] at hclose
      exact absurd hclose (by decide)
    | false =>
      rw [(booleanAt_false hb).1] at hclose
      exact absurd hclose (by decide)

theorem nullAt_of_closes (hclose : input.closes p = true) : input.nullAt p = false := by
  unfold Input.closes at hclose
  rw [Bool.or_eq_true, beq_iff_eq, beq_iff_eq] at hclose
  cases hn : input.nullAt p with
  | false => rfl
  | true =>
    rw [(nullAt_true hn).1] at hclose
    exact absurd hclose (by decide)

/-- At a closing bracket no branch is taken. -/
theorem parseBranch_closes (hclose : input.closes start = true) (s : ParseState) :
    ∃ s', SameLog s s' ∧ s'.isValid = s.isValid ∧
      s'.reach ≤ max s.reach (max input.size start + 1) ∧
      ∀ object array : ℕ → Parser (Json δ × ℕ),
        parseBranch input object array start p s = .ok (.null, p) s' := by
  have hchar : (input.byte start == '"') = false ∧ isNumber (input.byte start) = false ∧
      (input.byte start == '{') = false ∧ (input.byte start == '[') = false := by
    unfold Input.closes at hclose
    rw [Bool.or_eq_true, beq_iff_eq, beq_iff_eq] at hclose
    obtain hbyte | hbyte := hclose
    all_goals
      rw [hbyte]
      decide
  obtain ⟨s₁, hread, hlog₁, hvalid₁, hreach₁⟩ :=
    (peeks_charAt (Nat.lt_succ_self start)).run (x := charAt input start) s
  obtain ⟨s₂, hboolean, hlog₂, hvalid₂, hreach₂⟩ :=
    (peeks_isBoolean input start (Nat.le_refl _)).run s₁
  obtain ⟨s₃, hnull, hlog₃, hvalid₃, hreach₃⟩ :=
    (peeks_isNull input start (Nat.le_refl _)).run s₂
  rw [booleanAt_of_closes hclose] at hboolean
  rw [nullAt_of_closes hclose] at hnull
  refine ⟨s₃, (hlog₁.trans hlog₂).trans hlog₃, hvalid₃.trans (hvalid₂.trans hvalid₁),
    by omega, fun object array => ?_⟩
  rw [parseBranch, bind_ok hread]
  simp only [hchar, Bool.false_eq_true, if_false]
  rw [bind_ok hboolean]
  simp only
  rw [bind_ok hnull]
  rfl

/-- A value is a token that is read here, or a container that one of the readers reads. -/
theorem parseBranch_cases (hvalue : input.startsValue start = true) (hs : s.isValid = true) :
    (∃ r, Lands input (start + 1) s r ∧ ∀ object array : ℕ → Parser (Json δ × ℕ),
      parseBranch input object array start p s = r) ∨
    ∃ s', SameLog s s' ∧ s'.isValid = true ∧
      s'.reach ≤ max s.reach (max input.size start + 1) ∧
      ((input.byte start = '{' ∧ ∀ object array : ℕ → Parser (Json δ × ℕ),
          parseBranch input object array start p s = object (start + 1) s') ∨
        input.byte start = '[' ∧ ∀ object array : ℕ → Parser (Json δ × ℕ),
          parseBranch input object array start p s = array (start + 1) s') := by
  obtain ⟨s₁, hread, hlog₁, hvalid₁, hreach₁⟩ :=
    (peeks_charAt (Nat.lt_succ_self start)).run (x := charAt input start) s
  obtain ⟨s₂, hboolean, hlog₂, hvalid₂, hreach₂⟩ :=
    (peeks_isBoolean input start (Nat.le_refl _)).run s₁
  obtain ⟨s₃, hnull, hlog₃, hvalid₃, hreach₃⟩ :=
    (peeks_isNull input start (Nat.le_refl _)).run s₂
  have hlogs₂ := hlog₁.trans hlog₂
  have hlogs₃ := hlogs₂.trans hlog₃
  have hvalids₂ : s₂.isValid = s.isValid := hvalid₂.trans hvalid₁
  have hvalids₃ : s₃.isValid = s.isValid := hvalid₃.trans hvalids₂
  have hlift : ∀ {r : EStateM.Result Abort ParseState (Json δ × ℕ)},
      Lands input (start + 1) s₁ r → Lands input (start + 1) s r := by
    intro r hr
    rcases hr with ⟨s', heq, hlog⟩ | ⟨a, q, s', heq, hlog, hq, hend⟩
    · exact Or.inl ⟨s', heq, hlog₁.trans hlog⟩
    · exact Or.inr ⟨a, q, s', heq, hlog₁.trans hlog, hq, by rwa [hvalid₁] at hend⟩
  have hrun : ∀ object array : ℕ → Parser (Json δ × ℕ),
      parseBranch input object array start p s = _ := fun object array => bind_ok hread
  cases hquote : input.byte start == '"' with
  | true =>
    simp only [hquote, if_true] at hrun
    refine Or.inl ⟨_, hlift ?_, hrun⟩
    rcases parseValueString_lands input (start + 1) s₁ with
      ⟨s', heq, hlog⟩ | ⟨text, q, s', heq, hlog, hq, hend⟩
    · exact Or.inl ⟨s', bind_error heq, hlog⟩
    · exact Or.inr ⟨_, q, s', bind_ok heq, hlog, hq, hend⟩
  | false =>
  cases hnumber : isNumber (input.byte start) with
  | true =>
    simp only [hquote, hnumber, Bool.false_eq_true, if_false, if_true] at hrun
    exact Or.inl ⟨_, hlift (parseValueNumber_lands hnumber s₁), hrun⟩
  | false =>
  simp only [hquote, hnumber, Bool.false_eq_true, if_false] at hrun
  cases hb : input.booleanAt start with
  | some b =>
    rw [hb] at hboolean
    cases b with
    | true =>
      have hroom := (booleanAt_true hb).2
      exact Or.inl ⟨_, Or.inr ⟨_, start + 4, s₂, rfl, hlogs₂, by omega,
        Or.inl ⟨hvalids₂, by omega⟩⟩, fun object array =>
          (hrun object array).trans (bind_ok hboolean)⟩
    | false =>
      have hroom := (booleanAt_false hb).2
      exact Or.inl ⟨_, Or.inr ⟨_, start + 5, s₂, rfl, hlogs₂, by omega,
        Or.inl ⟨hvalids₂, by omega⟩⟩, fun object array =>
          (hrun object array).trans (bind_ok hboolean)⟩
  | none =>
  rw [hb] at hboolean
  have hrest : ∀ object array : ℕ → Parser (Json δ × ℕ),
      parseBranch input object array start p s = _ :=
    fun object array => (hrun object array).trans ((bind_ok hboolean).trans (bind_ok hnull))
  cases hn : input.nullAt start with
  | true =>
    have hroom := (nullAt_true hn).2
    simp only [hn, if_true] at hrest
    exact Or.inl ⟨_, Or.inr ⟨_, start + 4, s₃, rfl, hlogs₃, by omega,
      Or.inl ⟨hvalids₃, by omega⟩⟩, hrest⟩
  | false =>
  simp only [hn, Bool.false_eq_true, if_false] at hrest
  refine Or.inr ⟨s₃, hlogs₃, hvalids₃.trans hs, by omega, ?_⟩
  cases hbrace : input.byte start == '{' with
  | true =>
    simp only [hbrace, if_true] at hrest
    exact Or.inl ⟨beq_iff_eq.mp hbrace, hrest⟩
  | false =>
  cases hbracket : input.byte start == '[' with
  | true =>
    simp only [hbrace, hbracket, Bool.false_eq_true, if_false, if_true] at hrest
    exact Or.inr ⟨beq_iff_eq.mp hbracket, hrest⟩
  | false =>
    -- One of the branches is taken at the start of a value.
    simp [Input.startsValue, hquote, hnumber, hbrace, hbracket, hb, hn] at hvalue

/-- The position of a value moves on to a closing bracket only. -/
theorem stays_of_not_closes {input : Input} {q : ℕ} (p : ℕ) (hclose : input.closes q = false) :
    (if input.byte q == '}' || input.byte q == ']' then q else p) = p := by
  unfold Input.closes at hclose
  rw [hclose, if_neg (by decide)]

theorem valueTail_invalid {c : Char} (hs : s.isValid = false) :
    valueTail input object array c q p s =
      .ok (.null, if c == '}' || c == ']' then q else p) s := by
  have hget : (get : Parser ParseState) s = .ok s s := rfl
  rw [valueTail, bind_ok hget, hs]
  rfl

theorem valueTail_valid {c : Char} (hs : s.isValid = true) :
    valueTail input object array c q p s =
      (parseBranch input object array q (if c == '}' || c == ']' then q else p) >>=
        lastScan input) s := by
  have hget : (get : Parser ParseState) s = .ok s s := rfl
  rw [valueTail, bind_ok hget, hs]
  rfl

/-- The first scan of `parse_value`, and the rest of it. -/
theorem parseValueWith_run (input : Input) (p : ℕ) (s : ParseState) :
    ∃ q s', SameLog s s' ∧ (p ≤ input.size → s'.reach ≤ max s.reach (input.size + 1)) ∧ p ≤ q ∧
      (∀ j, p ≤ j → j < q → (input.startsValue j || input.closes j) = false) ∧
      (((input.startsValue q || input.closes q) = true ∧ (q = p ∨ q < input.size) ∧
          s'.isValid = s.isValid ∧ ∀ object array : ℕ → Parser (Json δ × ℕ),
            parseValueWith input object array p s =
              valueTail input object array (input.byte q) q p s') ∨
        (input.size ≤ q ∧ s'.isValid = false ∧ ∀ object array : ℕ → Parser (Json δ × ℕ),
          parseValueWith input object array p s = .ok (.null, p) s')) := by
  obtain ⟨q, exceeded, s₁, hscan, hlog, hreach, hle, hpassed, hend⟩ :=
    scan_run input (max input.size p + 1) (valueStop input)
      (fun i => input.startsValue i || input.closes i) p
      (fun i hi => peeks_valueStop (by omega) (by omega)) s
  rcases hend with ⟨rfl, hmet, hin, hvalid⟩ | ⟨rfl, hsize, _, hvalid⟩
  · have hread : charAt input q s₁ = .ok (input.byte q) { s₁ with reach := max s₁.reach (q + 1) } :=
      rfl
    refine ⟨q, { s₁ with reach := max s₁.reach (q + 1) }, hlog, fun hp => ?_, hle, hpassed,
      Or.inl ⟨hmet, hin, hvalid, fun object array => (bind_ok hscan).trans (bind_ok hread)⟩⟩
    show max s₁.reach (q + 1) ≤ max s.reach (input.size + 1)
    omega
  · refine ⟨q, s₁, hlog, fun hp => by omega, hle, hpassed,
      Or.inr ⟨hsize, hvalid, fun object array => ?_⟩⟩
    have hpure : (pure '\x00' : Parser Char) s₁ = .ok '\x00' s₁ := rfl
    have hrun : parseValueWith input object array p s =
        valueTail input object array '\x00' q p s₁ := (bind_ok hscan).trans (bind_ok hpure)
    rw [hrun, valueTail_invalid hvalid]
    rfl

/-- A scan that ends at a closing bracket leaves the position there. -/
theorem valueTail_closes (p : ℕ) (hclose : input.closes q = true) (s : ParseState) :
    ∃ s', SameLog s s' ∧ s'.isValid = s.isValid ∧
      s'.reach ≤ max s.reach (max input.size q + 1) ∧
      ∀ object array : ℕ → Parser (Json δ × ℕ),
        valueTail input object array (input.byte q) q p s = .ok (.null, q) s' := by
  have hmoved : (if input.byte q == '}' || input.byte q == ']' then q else p) = q := if_pos hclose
  cases hs : s.isValid with
  | false =>
    exact ⟨s, SameLog.refl s, hs, Nat.le_max_left ..,
      fun object array => by rw [valueTail_invalid hs, hmoved]⟩
  | true =>
    obtain ⟨s₁, hlog₁, hvalid₁, hreach₁, hbranch⟩ := parseBranch_closes (δ := δ) (p := q) hclose s
    obtain ⟨q', exceeded, s₂, hscan, hlog₂, hreach₂, hle, hpassed, hend⟩ :=
      scanChar_run input (fun c => c == ',' || c == '}' || c == ']') q s₁
    have hstop : (input.byte q == ',' || input.byte q == '}' || input.byte q == ']') = true := by
      unfold Input.closes at hclose
      rw [Bool.or_assoc, hclose, Bool.or_true]
    have hhere : q' = q := by
      by_contra hne
      have hpass := hpassed q (Nat.le_refl q) (by omega)
      rw [hstop] at hpass
      cases hpass
    rcases hend with ⟨_, _, _, hvalid₂⟩ | ⟨_, _, hlt, _⟩
    · refine ⟨s₂, hlog₁.trans hlog₂, hvalid₂.trans (hvalid₁.trans hs), by omega,
        fun object array => ?_⟩
      rw [hhere] at hscan
      rw [valueTail_valid hs, hmoved]
      exact (bind_ok (hbranch object array)).trans (bind_ok hscan)
    · omega

end Branches

section Turns

variable [CharConv δ]

theorem parseObject_close (hbyte : input.byte p = '}') (res : Json δ) (s : ParseState) :
    ∃ s', SameLog s s' ∧ s'.isValid = s.isValid ∧ s'.reach ≤ max s.reach (p + 1) ∧
      ∀ fuel, parseObject input (fuel + 1) res p s = .ok (res, p + 1) s' := by
  obtain ⟨s₁, hread, hlog, hvalid, hreach⟩ :=
    (peeks_charAt (Nat.lt_succ_self p)).run (x := charAt input p) s
  refine ⟨s₁, hlog, hvalid, hreach, fun fuel => ?_⟩
  rw [parseObject, bind_ok hread, hbyte]
  rfl

theorem parseArray_close (hbyte : input.byte p = ']') (res : Json δ) (index : ℕ)
    (s : ParseState) : ∃ s', SameLog s s' ∧ s'.isValid = s.isValid ∧
      s'.reach = max s.reach (p + 1) ∧
      ∀ fuel, parseArray input (fuel + 1) res index p s = .ok (res, p + 1) s' := by
  have hread : charAt input p s = .ok (input.byte p) { s with reach := max s.reach (p + 1) } := rfl
  refine ⟨{ s with reach := max s.reach (p + 1) }, ⟨rfl, rfl⟩, rfl, rfl, fun fuel => ?_⟩
  rw [parseArray, bind_ok hread, hbyte]
  rfl

/-- The result of a turn that began at `p`, from that of its value: a failure, or the loop
is left behind the text, or `next` reads on. -/
def turnResult (input : Input) (p : ℕ) (store : Json δ → Json δ)
    (next : Json δ → ℕ → ParseState → EStateM.Result Abort ParseState (Json δ × ℕ)) :
    EStateM.Result Abort ParseState (Json δ × ℕ) → EStateM.Result Abort ParseState (Json δ × ℕ)
  | .error e s => .error e s
  | .ok (value, q) s =>
    if input.size ≤ q then .ok (store value, q + 1) { s with isValid := false }
    else next (store value) q { s with turns := (p, q) :: s.turns }

theorem parseArray_turn (hbyte : input.byte p ≠ ']') (res : Json δ) (index : ℕ)
    (s : ParseState) : ∃ s₁, s₁.heads = p :: s.heads ∧ s₁.turns = s.turns ∧
      s₁.isValid = s.isValid ∧ s₁.reach ≤ max s.reach (p + 1) ∧
      ∀ fuel, parseArray input (fuel + 1) res index p s =
        turnResult input p (fun value => res.setIndex index value)
          (fun res q s => parseArray input fuel res (index + 1) q s)
          (parseValue input fuel p s₁) := by
  obtain ⟨s₁, hread, hlog, hvalid, hreach⟩ :=
    (peeks_charAt (Nat.lt_succ_self p)).run (x := charAt input p) s
  have hopen : (input.byte p == ']') = false := by simpa using hbyte
  refine ⟨{ s₁ with heads := p :: s₁.heads }, by rw [hlog.1], hlog.2, hvalid, hreach,
    fun fuel => ?_⟩
  have hrecord : (modify fun s => { s with heads := p :: s.heads } : Parser PUnit) s₁ =
      .ok ⟨⟩ { s₁ with heads := p :: s₁.heads } := rfl
  rw [parseArray, bind_ok hread, hopen]
  refine (bind_ok hrecord).trans ?_
  cases hvalue : (parseValue input fuel p : Parser (Json δ × ℕ))
      { s₁ with heads := p :: s₁.heads } with
  | error e s₂ =>
    exact bind_error hvalue
  | ok r s₂ =>
    obtain ⟨value, q⟩ := r
    refine (bind_ok hvalue).trans ?_
    by_cases hsize : input.size ≤ q
    · rw [turnResult, if_pos hsize]
      exact bind_ok (checkExceedSize_of_le hsize s₂)
    · rw [turnResult, if_neg hsize]
      exact bind_ok (checkExceedSize_of_lt (Nat.not_le.mp hsize) s₂)

/-- A turn of the object loop reads a key, and then a value if that does not fail. -/
theorem parseObject_open (hbyte : input.byte p ≠ '}') (res : Json δ) (s : ParseState) :
    ∃ s₁, SameLog s s₁ ∧ s₁.isValid = s.isValid ∧ s₁.reach ≤ max s.reach (p + 1) ∧
      (∀ e s₂, parseKey input p s₁ = .error e s₂ →
        ∀ fuel, parseObject input (fuel + 1) res p s = .error e s₂) ∧
      ∀ key pos s₂, parseKey input p s₁ = .ok (key, pos) s₂ →
        ∀ fuel, parseObject input (fuel + 1) res p s =
          turnResult input p (fun value => res.setKey key value)
            (fun res q s => parseObject input fuel res q s) (parseValue input fuel pos s₂) := by
  obtain ⟨s₁, hread, hlog, hvalid, hreach⟩ :=
    (peeks_charAt (Nat.lt_succ_self p)).run (x := charAt input p) s
  have hopen : (input.byte p == '}') = false := by simpa using hbyte
  refine ⟨s₁, hlog, hvalid, hreach, fun e s₂ hkey fuel => ?_, fun key pos s₂ hkey fuel => ?_⟩
  · rw [parseObject, bind_ok hread, hopen]
    exact bind_error hkey
  · rw [parseObject, bind_ok hread, hopen]
    refine (bind_ok hkey).trans ?_
    cases hvalue : (parseValue input fuel pos : Parser (Json δ × ℕ)) s₂ with
    | error e s₃ => exact bind_error hvalue
    | ok r s₃ =>
      obtain ⟨value, q⟩ := r
      refine (bind_ok hvalue).trans ?_
      by_cases hsize : input.size ≤ q
      · rw [turnResult, if_pos hsize]
        exact bind_ok (checkExceedSize_of_le hsize s₃)
      · rw [turnResult, if_neg hsize]
        exact bind_ok (checkExceedSize_of_lt (Nat.not_le.mp hsize) s₃)

/-- A turn of the object loop passes a key and reads a value, or fails. -/
theorem parseObject_turn (hp : Placed input p s) (hpsize : p ≤ input.size)
    (hbyte : input.byte p ≠ '}') (res : Json δ) :
    (∃ s', SameLog s s' ∧
        ∀ fuel, parseObject input (fuel + 1) res p s = .error .outOfRange s') ∨
      ∃ key pos s', SameLog s s' ∧ p < pos ∧ Placed input pos s' ∧
        ∀ fuel, parseObject input (fuel + 1) res p s =
          turnResult input p (fun value => res.setKey key value)
            (fun res q s => parseObject input fuel res q s) (parseValue input fuel pos s') := by
  obtain ⟨s₁, hlog₁, hvalid₁, _, hfails, hgoes⟩ := parseObject_open hbyte res s
  obtain ⟨hlands, hnokey⟩ := parseKey_lands input hpsize s₁
  rcases hlands with ⟨s₂, hkey, hlog₂⟩ | ⟨key, pos, s₂, hkey, hlog₂, hpos, hend⟩
  · exact Or.inl ⟨s₂, hlog₁.trans hlog₂, hfails _ s₂ hkey⟩
  · refine Or.inr ⟨key, pos, s₂, hlog₁.trans hlog₂, hpos, ?_, hgoes key pos s₂ hkey⟩
    rcases hend with ⟨hsame, hin⟩ | ⟨hinvalid, hout⟩
    · refine ⟨fun _ => hin, fun hv => ?_⟩
      rcases hp.2 ((hsame.trans hvalid₁).symm.trans hv) with hsize | hblocked
      · exact Or.inl (by omega)
      · exact Or.inl (hnokey hblocked key pos s₂ hkey).2
    · refine ⟨fun hv => ?_, fun _ => Or.inl hout⟩
      rw [hinvalid] at hv
      cases hv

theorem parseObject_zero (res : Json δ) (s : ParseState) :
    parseObject input 0 res p s = .error .outOfFuel s := by
  rw [parseObject]
  rfl

theorem parseArray_zero (res : Json δ) (index : ℕ) (s : ParseState) :
    parseArray input 0 res index p s = .error .outOfFuel s := by
  rw [parseArray]
  rfl

theorem parseValue_zero (s : ParseState) :
    parseValue input 0 p s =
      (.error .outOfFuel s : EStateM.Result Abort ParseState (Json δ × ℕ)) := by
  rw [parseValue]
  rfl

theorem parseValue_succ (fuel : ℕ) (s : ParseState) :
    parseValue input (fuel + 1) p s = parseValueWith input (parseObject input fuel .null)
      (parseArray input fuel (.null : Json δ) 0) p s := by
  rw [parseValue]

end Turns

section Values

/-- The last scan of `parse_value` moves on from a placed position. -/
theorem lastScan_run (res : Json δ) (hp : Placed input p s) : ∃ q s',
    lastScan input (res, p) s = .ok (res, q) s' ∧ SameLog s s' ∧ p ≤ q ∧ Placed input q s' := by
  obtain ⟨q, exceeded, s₁, hscan, hlog, _, hle, _, hend⟩ :=
    scanChar_run input (fun c => c == ',' || c == '}' || c == ']') p s
  refine ⟨q, s₁, bind_ok hscan, hlog, hle, ?_⟩
  rcases hend with ⟨_, _, hq, hvalid⟩ | ⟨_, hsize, _, hinvalid⟩
  · refine ⟨fun hv => ?_, fun hv => ?_⟩
    · have hpsize := hp.1 (hvalid.symm.trans hv)
      omega
    · rcases hp.2 (hvalid.symm.trans hv) with hsize | hblocked
      · exact Or.inl (by omega)
      · by_cases hlt : q < input.size
        · exact Or.inr (hblocked.mono hle hlt)
        · exact Or.inl (by omega)
  · refine ⟨fun hv => ?_, fun _ => Or.inl hsize⟩
    rw [hinvalid] at hv
    cases hv

variable [CharConv δ]

/-- The branch of a value and the last scan come to a place behind the start of the value, or
hand over after the bracket of a container. -/
theorem branch_lastScan_cases {q : ℕ} (hstart : input.startsValue q = true)
    (hs : s.isValid = true) :
    (∃ r, (∀ object array : ℕ → Parser (Json δ × ℕ),
        (parseBranch input object array q p >>= lastScan input) s = r) ∧
      ((∃ s', r = .error .outOfRange s' ∧ SameLog s s') ∨
        ∃ res pos s', r = .ok (res, pos) s' ∧ SameLog s s' ∧ q < pos ∧ Placed input pos s')) ∨
    ∃ s', SameLog s s' ∧ s'.isValid = true ∧
      s'.reach ≤ max s.reach (max input.size q + 1) ∧
      ((input.byte q = '{' ∧ ∀ object array : ℕ → Parser (Json δ × ℕ),
          (parseBranch input object array q p >>= lastScan input) s =
            (object (q + 1) >>= lastScan input) s') ∨
        input.byte q = '[' ∧ ∀ object array : ℕ → Parser (Json δ × ℕ),
          (parseBranch input object array q p >>= lastScan input) s =
            (array (q + 1) >>= lastScan input) s') := by
  rcases parseBranch_cases (δ := δ) (p := p) hstart hs with
    ⟨r, hlands, hbranch⟩ | ⟨s₂, hlog, hvalid, hreach, hbranch⟩
  · rcases hlands with ⟨s₂, rfl, hlog⟩ | ⟨res, pos, s₂, rfl, hlog, hpos, hplace⟩
    · exact Or.inl ⟨.error .outOfRange s₂, fun object array => bind_error (hbranch object array),
        Or.inl ⟨s₂, rfl, hlog⟩⟩
    · have hplaced : Placed input pos s₂ := by
        refine ⟨fun hv => ?_, fun hv => Or.inl ?_⟩
        · rcases hplace with ⟨_, hin⟩ | ⟨hinvalid, _⟩
          · exact hin
          · rw [hinvalid] at hv
            cases hv
        · rcases hplace with ⟨hsame, _⟩ | ⟨_, hout⟩
          · rw [hsame, hs] at hv
            cases hv
          · exact hout
      obtain ⟨last, s₃, hlast, hlog', hle, hplaced'⟩ := lastScan_run res hplaced
      exact Or.inl ⟨.ok (res, last) s₃,
        fun object array => (bind_ok (hbranch object array)).trans hlast,
        Or.inr ⟨res, last, s₃, rfl, hlog.trans hlog', by omega, hplaced'⟩⟩
  · refine Or.inr ⟨s₂, hlog, hvalid, hreach, ?_⟩
    rcases hbranch with ⟨hbyte, hbranch⟩ | ⟨hbyte, hbranch⟩
    · exact Or.inl ⟨hbyte, fun object array => bind_run_congr (hbranch object array)⟩
    · exact Or.inr ⟨hbyte, fun object array => bind_run_congr (hbranch object array)⟩

omit [CharConv δ] in
/-- The scan for a value from `p` on comes to a container at `start`, behind whose bracket its
reader goes on. -/
structure Opens (input : Input) (p start : ℕ) (s s' : ParseState) : Prop where
  sameLog : SameLog s s'
  valid : s'.isValid = true
  le : p ≤ start
  lt : start < input.size
  starts : input.startsValue start = true
  passed : ∀ j, p ≤ j → j < start → (input.startsValue j || input.closes j) = false
  reach : p ≤ input.size → s'.reach ≤ max s.reach (input.size + 1)

/-- A value is read from a placed position without one of the other readers, or after the
bracket of a container one of them goes on. At an open place of an array that is not stuck
the position moves on in either case. -/
theorem parseValueWith_cases (hp : Placed input p s) :
    (∃ r, (∀ object array : ℕ → Parser (Json δ × ℕ),
        parseValueWith input object array p s = r) ∧
      ((∃ s', r = .error .outOfRange s' ∧ SameLog s s') ∨
        ∃ res q s', r = .ok (res, q) s' ∧ SameLog s s' ∧ p ≤ q ∧ Placed input q s' ∧
          (p < input.size → input.byte p ≠ ']' → ¬ Stuck input p → p < q))) ∨
    ∃ start s', Opens input p start s s' ∧
      ((input.byte start = '{' ∧ ∀ object array : ℕ → Parser (Json δ × ℕ),
          parseValueWith input object array p s = (object (start + 1) >>= lastScan input) s') ∨
        input.byte start = '[' ∧ ∀ object array : ℕ → Parser (Json δ × ℕ),
          parseValueWith input object array p s =
            (array (start + 1) >>= lastScan input) s') := by
  obtain ⟨q, s₁, hlog, hreach, hle, hpassed, hend⟩ := parseValueWith_run (δ := δ) input p s
  have hfound : Blocked input p → (input.startsValue q || input.closes q) = false ∨
      input.size ≤ q := by
    intro hblocked
    by_cases hq : q < input.size
    · exact Or.inl (hblocked.2 q hle hq)
    · exact Or.inr (Nat.not_lt.mp hq)
  rcases hend with ⟨hmet, hin, hvalid, hrun⟩ | ⟨hsize, hinvalid, hrun⟩
  · have hpast : s.isValid = false → input.size ≤ p := by
      intro hv
      rcases hp.2 hv with hpsize | hblocked
      · exact hpsize
      · rcases hfound hblocked with hfree | hq
        · rw [hmet] at hfree
          cases hfree
        · have := hblocked.1
          omega
    have hkept : ∀ {s' : ParseState}, s'.isValid = s.isValid → Placed input q s' := by
      intro s' hsame
      refine ⟨fun hv => ?_, fun hv => Or.inl ?_⟩
      · have hpsize := hp.1 (hsame.symm.trans hv)
        omega
      · have hpsize := hpast (hsame.symm.trans hv)
        omega
    cases hclose : input.closes q with
    | true =>
      obtain ⟨s₂, hlog₂, hvalid₂, _, hok⟩ := valueTail_closes (δ := δ) p hclose s₁
      refine Or.inl ⟨_, fun object array => (hrun object array).trans (hok object array),
        Or.inr ⟨.null, q, s₂, rfl, hlog.trans hlog₂, hle, hkept (hvalid₂.trans hvalid), ?_⟩⟩
      -- A bracket at the position itself would be the end of the array, or stuck.
      intro hpsize hbyte hfree
      have hne : q ≠ p := by
        intro heq
        rw [heq, Input.closes, Bool.or_eq_true, beq_iff_eq, beq_iff_eq] at hclose
        rcases hclose with hbrace | hbracket
        · exact hfree ⟨hpsize, hbyte, Or.inr ⟨p, Nat.le_refl p, hpsize, hbrace,
            fun j hj hjp => absurd hj (by omega)⟩⟩
        · exact hbyte hbracket
      omega
    | false =>
      have hstart : input.startsValue q = true := by
        rw [hclose, Bool.or_false] at hmet
        exact hmet
      have hstay := stays_of_not_closes p hclose
      cases hs : s₁.isValid with
      | false =>
        have hinvalid : s.isValid = false := hvalid.symm.trans hs
        have hout := hpast hinvalid
        refine Or.inl ⟨.ok (.null, p) s₁, fun object array => ?_,
          Or.inr ⟨.null, p, s₁, rfl, hlog, Nat.le_refl p, ?_, fun hpsize => by omega⟩⟩
        · rw [hrun, valueTail_invalid hs, hstay]
        · refine ⟨fun hv => ?_, fun _ => Or.inl hout⟩
          rw [hs] at hv
          cases hv
      | true =>
        have hpsize := hp.1 (hvalid.symm.trans hs)
        have hq : q < input.size := by
          rcases hin with heq | hlt
          · refine lt_size_of_byte_ne (by omega) fun hnul => ?_
            rw [startsValue_nul hnul] at hstart
            cases hstart
          · exact hlt
        have htail : ∀ object array : ℕ → Parser (Json δ × ℕ),
            parseValueWith input object array p s =
              (parseBranch input object array q p >>= lastScan input) s₁ := by
          intro object array
          rw [hrun, valueTail_valid hs, hstay]
        rcases branch_lastScan_cases (δ := δ) (p := p) hstart hs with
          ⟨r, hbranch, hlands⟩ | ⟨s₂, hlog₂, hvalid₂, hreach₂, hbranch⟩
        · refine Or.inl
            ⟨r, fun object array => (htail object array).trans (hbranch object array), ?_⟩
          rcases hlands with ⟨s₂, hr, hlog₂⟩ | ⟨res, pos, s₂, hr, hlog₂, hpos, hplaced⟩
          · exact Or.inl ⟨s₂, hr, hlog.trans hlog₂⟩
          · exact Or.inr ⟨res, pos, s₂, hr, hlog.trans hlog₂, by omega, hplaced,
              fun _ _ _ => by omega⟩
        · have hopens : Opens input p q s s₂ := by
            refine ⟨hlog.trans hlog₂, hvalid₂, hle, hq, hstart, hpassed, fun hin => ?_⟩
            have hnear := hreach hin
            omega
          refine Or.inr ⟨q, s₂, hopens, ?_⟩
          rcases hbranch with ⟨hbyte, hbranch⟩ | ⟨hbyte, hbranch⟩
          · exact Or.inl ⟨hbyte, fun object array =>
              (htail object array).trans (hbranch object array)⟩
          · exact Or.inr ⟨hbyte, fun object array =>
              (htail object array).trans (hbranch object array)⟩
  · have hblocked : p < input.size → Blocked input p := fun hpsize =>
      ⟨hpsize, fun j hj hjs => hpassed j hj (by omega)⟩
    refine Or.inl ⟨_, hrun, Or.inr ⟨.null, p, s₁, rfl, hlog, Nat.le_refl p, ?_, ?_⟩⟩
    · refine ⟨fun hv => ?_, fun _ => ?_⟩
      · rw [hinvalid] at hv
        cases hv
      · by_cases hpsize : p < input.size
        · exact Or.inr (hblocked hpsize)
        · exact Or.inl (by omega)
    · intro hpsize hbyte hfree
      exact absurd ⟨hpsize, hbyte, Or.inl (hblocked hpsize)⟩ hfree

end Values

end OrderBookServer.JsonParse
