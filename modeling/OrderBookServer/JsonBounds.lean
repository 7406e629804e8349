import OrderBookServer.JsonSteady

/-!
Reading inside the text. The reader looks at most at the NUL behind the text as long as every
key and every string that it begins ends in the text, and as long as the text does not end
inside a container that lies in another one: the loops are left one position further on each
time, and the scan that follows a nested container begins there.
-/
namespace OrderBookServer.JsonParse

variable {δ α β : Type} {input : Input} {p q pos : ℕ} {s s' : ParseState}

/-- The first position from `p` on that meets a test. -/
def FirstAt (f : ℕ → Bool) (p q : ℕ) : Prop :=
  p ≤ q ∧ f q = true ∧ ∀ j, p ≤ j → j < q → f j = false

/-- A string whose text begins at `p` is followed at `pos`. -/
def StringEnds (input : Input) (p pos : ℕ) : Prop :=
  ∃ q, q < input.size ∧ FirstAt (fun i => input.byte i == '"') p q ∧ pos = q + 1

/-- A key that is looked for from `p` on is followed at `pos`. A closing brace is a key. -/
def KeyEnds (input : Input) (p pos : ℕ) : Prop :=
  ∃ q, q < input.size ∧ FirstAt (fun i => input.byte i == '"' || input.byte i == '}') p q ∧
    (input.byte q = '}' ∧ pos = q + 1 ∨ input.byte q = '"' ∧ StringEnds input (q + 1) pos)

/-- Where a scan from `p` ends: at the first position of the text that meets the test, or
behind the text. -/
def ScanEnds (input : Input) (f : ℕ → Bool) (p q : ℕ) : Prop :=
  q < input.size ∧ FirstAt f p q ∨
    q = max input.size (p + 1) ∧ ∀ j, p ≤ j → j < input.size → f j = false

/-- The next comma or closing bracket. -/
def SeparatorEnds (input : Input) : ℕ → ℕ → Prop :=
  ScanEnds input fun i => input.byte i == ',' || input.byte i == '}' || input.byte i == ']'

/-- The length of the keyword at a position. -/
def keywordAt (input : Input) (start : ℕ) : Option ℕ :=
  match input.booleanAt start with
  | some true => some 4
  | some false => some 5
  | none => if input.nullAt start then some 4 else none

/-- A string, a number or a keyword that begins at `start` is followed at `pos`. -/
def TokenEnds (input : Input) (start pos : ℕ) : Prop :=
  if input.byte start = '"' then StringEnds input (start + 1) pos
  else if isNumber (input.byte start) then
    ScanEnds input (fun i => !input.takesNumber i) start pos
  else ∃ length, keywordAt input start = some length ∧ pos = start + length

/-- The first position from `p` on at which a value begins or a container ends. -/
def ValueAt (input : Input) (p start : ℕ) : Prop :=
  start < input.size ∧ FirstAt (fun i => input.startsValue i || input.closes i) p start

mutual

/-- The rest of an object, from `p` on, is followed at the second position. That one lies
behind the text where the text ends inside the object. -/
inductive ObjectEnds (input : Input) : ℕ → ℕ → Prop
  | close {p : ℕ} (hbyte : input.byte p = '}') : ObjectEnds input p (p + 1)
  | cut {p pos q : ℕ} (hbyte : input.byte p ≠ '}') (hkey : KeyEnds input p pos)
      (hvalue : ValueEnds input pos q) (hq : input.size ≤ q) : ObjectEnds input p (q + 1)
  | turn {p pos q r : ℕ} (hbyte : input.byte p ≠ '}') (hkey : KeyEnds input p pos)
      (hvalue : ValueEnds input pos q) (hq : q < input.size) (hrest : ObjectEnds input q r) :
      ObjectEnds input p r

inductive ArrayEnds (input : Input) : ℕ → ℕ → Prop
  | close {p : ℕ} (hbyte : input.byte p = ']') : ArrayEnds input p (p + 1)
  | cut {p q : ℕ} (hbyte : input.byte p ≠ ']') (hvalue : ValueEnds input p q)
      (hq : input.size ≤ q) : ArrayEnds input p (q + 1)
  | turn {p q r : ℕ} (hbyte : input.byte p ≠ ']') (hvalue : ValueEnds input p q)
      (hq : q < input.size) (hrest : ArrayEnds input q r) : ArrayEnds input p r

/-- The value that is looked for from `p` on is followed at the second position. A container
that is a value is closed in the text. -/
inductive ValueEnds (input : Input) : ℕ → ℕ → Prop
  | missing {p : ℕ}
      (hnone : ∀ j, p ≤ j → j < input.size → (input.startsValue j || input.closes j) = false) :
      ValueEnds input p p
  | bracket {p q : ℕ} (hat : ValueAt input p q) (hclose : input.closes q = true) :
      ValueEnds input p q
  | token {p start pos q : ℕ} (hat : ValueAt input p start) (htoken : TokenEnds input start pos)
      (hnext : SeparatorEnds input pos q) : ValueEnds input p q
  | object {p start pos q : ℕ} (hat : ValueAt input p start) (hbyte : input.byte start = '{')
      (hobject : ObjectEnds input (start + 1) pos) (hpos : pos ≤ input.size)
      (hnext : SeparatorEnds input pos q) : ValueEnds input p q
  | array {p start pos q : ℕ} (hat : ValueAt input p start) (hbyte : input.byte start = '[')
      (harray : ArrayEnds input (start + 1) pos) (hpos : pos ≤ input.size)
      (hnext : SeparatorEnds input pos q) : ValueEnds input p q

end

/-- What begins at `start` is a token or a container, followed at `pos`. -/
def BranchEnds (input : Input) (start pos : ℕ) : Prop :=
  TokenEnds input start pos ∨ input.byte start = '{' ∧ ObjectEnds input (start + 1) pos ∨
    input.byte start = '[' ∧ ArrayEnds input (start + 1) pos

/-- The run returns, and it has read nothing behind the NUL. -/
def Fine (input : Input) (r : EStateM.Result Abort ParseState α) : Prop :=
  ∃ a s, r = .ok a s ∧ s.reach ≤ input.size + 1

/-- The run is fine and ends where `E` says, or `E` says nothing and what follows the run
begins behind the text or has been looked at too far. -/
def Leads (input : Input) (E : ℕ → Prop) (r : EStateM.Result Abort ParseState (α × ℕ)) : Prop :=
  (∃ a q s, r = .ok (a, q) s ∧ s.reach ≤ input.size + 1 ∧ ∀ q', E q' ↔ q' = q) ∨
    (∀ q, ¬ E q) ∧ ∀ a q s, r = .ok (a, q) s → input.size < q ∨ input.size + 1 < s.reach

/-- The run is fine and ends where `E` says, or neither of both. -/
def Agrees (input : Input) (E : ℕ → Prop) (r : EStateM.Result Abort ParseState (α × ℕ)) : Prop :=
  (∃ a q s, r = .ok (a, q) s ∧ s.reach ≤ input.size + 1 ∧ ∀ q', E q' ↔ q' = q) ∨
    ¬ Fine input r ∧ ∀ q, ¬ E q

section Rules

variable {x : Parser α} {f : α → Parser β}

theorem FirstAt.unique {f : ℕ → Bool} {q' : ℕ} (h : FirstAt f p q) (h' : FirstAt f p q') :
    q = q' := by
  obtain ⟨hle, hmet, hpassed⟩ := h
  obtain ⟨hle', hmet', hpassed'⟩ := h'
  rcases Nat.lt_trichotomy q q' with hlt | heq | hgt
  · rw [hpassed' q hle hlt] at hmet
    cases hmet
  · exact heq
  · rw [hpassed q' hle' hgt] at hmet'
    cases hmet'

theorem fine_bind_iff (hf : ∀ a, Steady (f a)) : Fine input ((x >>= f) s) ↔
    ∃ a s', x s = .ok a s' ∧ s'.reach ≤ input.size + 1 ∧ Fine input (f a s') := by
  constructor
  · intro h
    obtain ⟨b, s₂, hok, hreach⟩ := h
    cases hrun : x s with
    | error e s₁ =>
      rw [bind_error hrun] at hok
      cases hok
    | ok a s₁ =>
      rw [bind_ok hrun] at hok
      have hgrows := (hf a).grows s₁
      rw [hok, finalState] at hgrows
      exact ⟨a, s₁, rfl, by omega, b, s₂, hok, hreach⟩
  · intro h
    obtain ⟨a, s₁, hrun, _, hfine⟩ := h
    rw [bind_ok hrun]
    exact hfine

/-- A program that has looked too far is not fine, whatever it does then. -/
theorem not_fine_of_reach (hx : Steady x) (hreach : input.size + 1 < s.reach) :
    ¬ Fine input (x s) := by
  intro h
  obtain ⟨a, s', hok, hle⟩ := h
  have hgrows := hx.grows s
  rw [hok, finalState] at hgrows
  omega

theorem reaches_bind {k : ℕ} (hx : k ≤ (finalState (x s)).reach) (hf : ∀ a, Steady (f a)) :
    k ≤ (finalState ((x >>= f) s)).reach := by
  cases hrun : x s with
  | error e s₁ =>
    rw [hrun] at hx
    rw [bind_error hrun]
    exact hx
  | ok a s₁ =>
    rw [hrun] at hx
    rw [bind_ok hrun]
    exact Nat.le_trans hx ((hf a).grows s₁)

/-- A scan looks at the position at which it begins. -/
theorem scan_reaches {stop : ℕ → Parser Bool} (hsteady : ∀ i, Steady (stop i))
    (hstop : ∀ s, p + 1 ≤ (finalState (stop p s)).reach) (s : ParseState) :
    p + 1 ≤ (finalState (scan input stop p s)).reach := by
  unfold scan
  cases input.size - 1 - p with
  | zero =>
    refine reaches_bind (hstop s) fun b => Steady.ite (Steady.pure _) ?_
    exact (steady_checkExceedSize _).bind fun _ => Steady.pure _
  | succ turns =>
    refine reaches_bind (hstop s) fun b => Steady.ite (Steady.pure _) ?_
    exact (steady_checkExceedSize _).bind fun _ =>
      Steady.ite (Steady.pure _) (steady_scanFrom hsteady _ _)

theorem scanChar_reaches (input : Input) (stop : Char → Bool) (p : ℕ) (s : ParseState) :
    p + 1 ≤ (finalState (scanChar input stop p s)).reach :=
  scan_reaches (fun i => (steady_charAt i).bind fun _ => Steady.pure _)
    (fun _ => Nat.le_max_right ..) s

theorem parseValueString_reaches (input : Input) (p : ℕ) (s : ParseState) :
    p + 1 ≤ (finalState (parseValueString input p s)).reach :=
  reaches_bind (scanChar_reaches input _ p s) fun _ =>
    (steady_getSubString _ _).bind fun _ => Steady.pure _

/-- A value is looked for at the position it is read from. -/
theorem parseValueWith_reaches [CharConv δ] {object array : ℕ → Parser (Json δ × ℕ)}
    (input : Input) (hobject : ∀ p, Steady (object p)) (harray : ∀ p, Steady (array p)) (p : ℕ)
    (s : ParseState) : p + 1 ≤ (finalState (parseValueWith input object array p s)).reach := by
  have htail := steady_valueTail input hobject harray
  refine reaches_bind (scan_reaches steady_valueStop (fun s => ?_) s) fun _ => Steady.ite ?_ ?_
  · refine reaches_bind (Nat.le_max_right ..) fun _ => Steady.ite (Steady.pure _) ?_
    exact (steady_isBoolean _).bind fun _ => Steady.ite (Steady.pure _)
      ((steady_isWord _ _ _).bind fun _ => Steady.ite (Steady.pure _) (Steady.pure _))
  · exact (Steady.pure _).bind fun c => htail c _ _
  · exact (steady_charAt _).bind fun c => htail c _ _

end Rules

section Tokens

/-- The last scan of a value begins in the text, or looks too far. -/
theorem fine_lastScan_iff (res : Json δ) (hs : s.reach ≤ input.size + 1) :
    Fine input (lastScan input (res, pos) s) ↔ pos ≤ input.size := by
  obtain ⟨q, exceeded, s₁, hscan, _, hreach, _⟩ :=
    scanChar_run input (fun c => c == ',' || c == '}' || c == ']') pos s
  have hlast : lastScan input (res, pos) s = .ok (res, q) s₁ := bind_ok hscan
  constructor
  · intro h
    obtain ⟨a, s₂, hok, hle⟩ := h
    rw [hlast] at hok
    cases hok
    have hfar := scanChar_reaches input
      (fun c => c == ',' || c == '}' || c == ']') pos s
    rw [hscan, finalState] at hfar
    omega
  · intro hpos
    exact ⟨_, s₁, hlast, by omega⟩

/-- A string from a position in the text is closed, or what follows begins behind the text. -/
theorem parseValueString_bounds (hp : p ≤ input.size) (hs : s.reach ≤ input.size + 1) :
    (∃ text pos s', parseValueString input p s = .ok (text, pos) s' ∧ StringEnds input p pos ∧
        s'.isValid = s.isValid ∧ s'.reach ≤ input.size + 1) ∨
      (∀ pos, ¬ StringEnds input p pos) ∧ ∀ text pos s',
        parseValueString input p s = .ok (text, pos) s' →
          input.size < pos ∧ s'.reach ≤ input.size + 1 := by
  obtain ⟨q, exceeded, s₁, hscan, _, hreach, hle, hpassed, hend⟩ :=
    scanChar_run input (fun c => c == '"') p s
  have hrun : parseValueString input p s =
      (getSubString input p q >>= fun value => pure (value, q + 1)) s₁ := bind_ok hscan
  rw [hrun]
  rcases hend with ⟨_, hmet, hin, hvalid⟩ | ⟨_, hsize, _, _⟩
  · have hlt : q < input.size := by
      refine lt_size_of_byte_ne (by omega) fun hnul => ?_
      rw [hnul] at hmet
      cases hmet
    rcases getSubString_run input p q s₁ with ⟨_, text, hsub⟩ | hsub
    · exact Or.inl ⟨text, q + 1, s₁, bind_ok hsub, ⟨q, hlt, ⟨hle, hmet, hpassed⟩, rfl⟩, hvalid,
        by omega⟩
    · unfold getSubString at hsub
      rw [if_pos (by omega)] at hsub
      cases hsub
  · refine Or.inr ⟨fun pos hends => ?_, fun text pos s' hok => ?_⟩
    · obtain ⟨e, he, ⟨hpe, hquote, _⟩, _⟩ := hends
      change (input.byte e == '"') = true at hquote
      rw [hpassed e hpe (by omega)] at hquote
      cases hquote
    · rcases getSubString_run input p q s₁ with ⟨_, text', hsub⟩ | hsub
      · rw [bind_ok hsub] at hok
        cases hok
        exact ⟨by omega, by omega⟩
      · rw [bind_error hsub] at hok
        cases hok

theorem StringEnds.unique {pos' : ℕ} (h : StringEnds input p pos) (h' : StringEnds input p pos') :
    pos = pos' := by
  obtain ⟨q, _, hfirst, rfl⟩ := h
  obtain ⟨q', _, hfirst', rfl⟩ := h'
  rw [hfirst.unique hfirst']

theorem KeyEnds.unique {pos' : ℕ} (h : KeyEnds input p pos) (h' : KeyEnds input p pos') :
    pos = pos' := by
  obtain ⟨q, _, hfirst, hend⟩ := h
  obtain ⟨q', _, hfirst', hend'⟩ := h'
  obtain rfl := hfirst.unique hfirst'
  rcases hend with ⟨hbrace, rfl⟩ | ⟨hquote, hstring⟩
  · rcases hend' with ⟨_, rfl⟩ | ⟨hquote, _⟩
    · rfl
    · rw [hbrace] at hquote
      exact absurd hquote (by decide)
  · rcases hend' with ⟨hbrace, _⟩ | ⟨_, hstring'⟩
    · rw [hquote] at hbrace
      exact absurd hbrace (by decide)
    · exact hstring.unique hstring'

theorem KeyEnds.le (h : KeyEnds input p pos) : pos ≤ input.size := by
  obtain ⟨q, hq, _, hend⟩ := h
  rcases hend with ⟨_, rfl⟩ | ⟨_, e, he, _, rfl⟩
  · exact hq
  · exact he

/-- No key is looked for where there is neither a quote nor a brace. -/
theorem not_keyEnds_of_blocked (hblocked : Blocked input p) : ¬ KeyEnds input p pos := by
  intro h
  obtain ⟨q, hq, ⟨hle, hmet, _⟩, _⟩ := h
  change (input.byte q == '"' || input.byte q == '}') = true at hmet
  rw [Bool.or_eq_true, beq_iff_eq, beq_iff_eq] at hmet
  exact not_blocked_of_byte hle hq hmet hblocked

/-- A key that is looked for in the text ends there, or what follows begins behind the text,
or the search itself looks too far. -/
theorem parseKey_bounds (hp : p ≤ input.size) (hs : s.reach ≤ input.size + 1) :
    (∃ key pos s', parseKey input p s = .ok (key, pos) s' ∧ KeyEnds input p pos ∧
        s'.isValid = s.isValid ∧ s'.reach ≤ input.size + 1) ∨
      (∀ pos, ¬ KeyEnds input p pos) ∧ ∀ key pos s',
        parseKey input p s = .ok (key, pos) s' →
          input.size < pos ∨ input.size + 1 < s'.reach := by
  obtain ⟨q, exceeded, s₁, hscan, _, hreach, hle, hpassed, hend⟩ :=
    scanChar_run input (fun c => c == '"' || c == '}') p s
  have hchar : charAt input q s₁ = .ok (input.byte q) { s₁ with reach := max s₁.reach (q + 1) } :=
    rfl
  have hrun : parseKey input p s = (if input.byte q == '}' then pure (['}'], q + 1)
      else parseValueString input (q + 1)) { s₁ with reach := max s₁.reach (q + 1) } :=
    (bind_ok hscan).trans (bind_ok hchar)
  rw [hrun]
  rcases hend with ⟨_, hmet, hin, hvalid⟩ | ⟨_, hsize, hq, _⟩
  · have hlt : q < input.size := by
      refine lt_size_of_byte_ne (by omega) fun hnul => ?_
      rw [hnul] at hmet
      exact absurd hmet (by decide)
    have hfirst : FirstAt (fun i => input.byte i == '"' || input.byte i == '}') p q :=
      ⟨hle, hmet, hpassed⟩
    have hnear : max s₁.reach (q + 1) ≤ input.size + 1 := by omega
    by_cases hbrace : input.byte q == '}'
    · rw [if_pos hbrace]
      exact Or.inl ⟨_, q + 1, _, rfl, ⟨q, hlt, hfirst, Or.inl ⟨beq_iff_eq.mp hbrace, rfl⟩⟩, hvalid,
        hnear⟩
    · rw [if_neg hbrace]
      have hquote : input.byte q = '"' := by
        rw [Bool.or_eq_true, beq_iff_eq] at hmet
        exact hmet.resolve_right hbrace
      rcases parseValueString_bounds (s := { s₁ with reach := max s₁.reach (q + 1) }) hlt hnear with
        ⟨key, pos, s', hok, hstring, hvalid', hreach'⟩ | ⟨hopen, hbehind⟩
      · exact Or.inl ⟨key, pos, s', hok, ⟨q, hlt, hfirst, Or.inr ⟨hquote, hstring⟩⟩,
          hvalid'.trans hvalid, hreach'⟩
      · refine Or.inr ⟨fun pos hends => ?_, fun key pos s' hok => ?_⟩
        · obtain ⟨q', _, hfirst', hend'⟩ := hends
          obtain rfl := hfirst.unique hfirst'
          rcases hend' with ⟨hbyte, _⟩ | ⟨_, hstring⟩
          · exact hbrace (beq_iff_eq.mpr hbyte)
          · exact hopen pos hstring
        · exact Or.inl (hbehind key pos s' hok).1
  · -- The scan has left the text: the byte behind the NUL is looked at here or next.
    refine Or.inr ⟨fun pos hends => ?_, fun key pos s' hok => Or.inr ?_⟩
    · obtain ⟨q', hq', ⟨hle', hmet, _⟩, _⟩ := hends
      change (input.byte q' == '"' || input.byte q' == '}') = true at hmet
      rw [hpassed q' hle' (by omega)] at hmet
      cases hmet
    · have hfar : input.size + 2 ≤ s'.reach := by
        by_cases hbyte : q = input.size
        · have hbrace : (input.byte q == '}') = false := by
            rw [hbyte, byte_size]
            decide
          rw [hbrace, if_neg (by decide)] at hok
          have hread := parseValueString_reaches input (q + 1)
            { s₁ with reach := max s₁.reach (q + 1) }
          rw [hok, finalState] at hread
          omega
        · have hsteady : Steady (if input.byte q == '}' then pure (['}'], q + 1)
              else parseValueString input (q + 1)) :=
            Steady.ite (Steady.pure _) (steady_parseValueString _)
          have hgrows := hsteady.grows { s₁ with reach := max s₁.reach (q + 1) }
          rw [hok, finalState] at hgrows
          simp only at hgrows
          omega
      omega

theorem ScanEnds.unique {f : ℕ → Bool} {q' : ℕ} (h : ScanEnds input f p q)
    (h' : ScanEnds input f p q') : q = q' := by
  rcases h with ⟨hq, hfirst⟩ | ⟨hq, hnone⟩
  · rcases h' with ⟨_, hfirst'⟩ | ⟨_, hnone'⟩
    · exact hfirst.unique hfirst'
    · obtain ⟨hle, hmet, _⟩ := hfirst
      rw [hnone' q hle hq] at hmet
      cases hmet
  · rcases h' with ⟨hq', hle', hmet', _⟩ | ⟨hq', _⟩
    · rw [hnone q' hle' hq'] at hmet'
      cases hmet'
    · omega

theorem keywordAt_of_byte (hbyte : input.byte p = '{' ∨ input.byte p = '[') :
    keywordAt input p = none := by
  have hfirst : input.byte p ≠ 't' ∧ input.byte p ≠ 'f' ∧ input.byte p ≠ 'n' := by
    rcases hbyte with hbyte | hbyte
    all_goals
      rw [hbyte]
      decide
  unfold keywordAt
  cases hb : input.booleanAt p with
  | some b =>
    cases b with
    | true => exact absurd (booleanAt_true hb).1 hfirst.1
    | false => exact absurd (booleanAt_false hb).1 hfirst.2.1
  | none =>
    cases hn : input.nullAt p with
    | true => exact absurd (nullAt_true hn).1 hfirst.2.2
    | false => rfl

/-- No token begins with a bracket. -/
theorem not_tokenEnds_of_byte (hbyte : input.byte p = '{' ∨ input.byte p = '[') :
    ¬ TokenEnds input p pos := by
  have hother : input.byte p ≠ '"' ∧ isNumber (input.byte p) = false := by
    rcases hbyte with hbyte | hbyte
    all_goals
      rw [hbyte]
      decide
  unfold TokenEnds
  rw [if_neg hother.1, hother.2, keywordAt_of_byte hbyte]
  intro h
  obtain ⟨length, hnone, _⟩ := h
  cases hnone

theorem Agrees.leads {E : ℕ → Prop} {r : EStateM.Result Abort ParseState (α × ℕ)}
    (h : Agrees input E r) : Leads input E r := by
  rcases h with hfine | ⟨hnot, hnone⟩
  · exact Or.inl hfine
  · refine Or.inr ⟨hnone, fun a q s hok => Or.inr ?_⟩
    by_contra hnear
    exact hnot ⟨_, s, hok, Nat.not_lt.mp hnear⟩

/-- A number that begins in the text ends there or at its end. -/
theorem parseValueNumber_leads [CharConv δ] (hp : p < input.size) (hs : s.reach ≤ input.size + 1) :
    Leads input (ScanEnds input (fun i => !input.takesNumber i) p)
      (parseValueNumber input p s : EStateM.Result _ _ (Json δ × ℕ)) := by
  have hpeeks : ∀ i, i = p ∨ i < input.size →
      Peeks (input.size + 1) (numberStop input i) (!input.takesNumber i) := by
    intro i hi
    exact peeks_numberStop (by omega) fun _ => by omega
  obtain ⟨q, exceeded, s₁, hscan, _, hreach, hle, hpassed, hend⟩ :=
    scan_run input (input.size + 1) (numberStop input) (fun i => !input.takesNumber i) p hpeeks s
  have hends : ScanEnds input (fun i => !input.takesNumber i) p q ∧ q ≤ input.size := by
    rcases hend with ⟨_, hmet, hq, _⟩ | ⟨_, hsize, hq, _⟩
    · exact ⟨Or.inl ⟨by omega, hle, hmet, hpassed⟩, by omega⟩
    · exact ⟨Or.inr ⟨by omega, fun j hj hlt => hpassed j hj (by omega)⟩, by omega⟩
  obtain ⟨res, hrun⟩ := parseValueNumber_ok (δ := δ) hends.2 hscan
  refine Or.inl ⟨res, q, s₁, hrun, by omega, fun q' => ⟨fun h => h.unique hends.1, fun h => ?_⟩⟩
  rw [h]
  exact hends.1

end Tokens

section Branches

variable [CharConv δ] {start : ℕ} {object array : ℕ → Parser (Json δ × ℕ)}

theorem branchEnds_token (hbrace : input.byte start ≠ '{') (hbracket : input.byte start ≠ '[') :
    BranchEnds input start pos ↔ TokenEnds input start pos := by
  unfold BranchEnds
  constructor
  · intro h
    rcases h with h | ⟨hbyte, _⟩ | ⟨hbyte, _⟩
    · exact h
    · exact absurd hbyte hbrace
    · exact absurd hbyte hbracket
  · exact Or.inl

theorem branchEnds_quote (hbyte : input.byte start = '"') :
    BranchEnds input start pos ↔ StringEnds input (start + 1) pos := by
  rw [branchEnds_token (by rw [hbyte]; decide) (by rw [hbyte]; decide), TokenEnds, if_pos hbyte]

theorem branchEnds_number (hnumber : isNumber (input.byte start) = true) :
    BranchEnds input start pos ↔ ScanEnds input (fun i => !input.takesNumber i) start pos := by
  have hchar : input.byte start ≠ '{' ∧ input.byte start ≠ '[' ∧ input.byte start ≠ '"' := by
    refine ⟨fun heq => ?_, fun heq => ?_, fun heq => ?_⟩
    all_goals
      rw [heq] at hnumber
      exact absurd hnumber (by decide)
  obtain ⟨hbrace, hbracket, hquote⟩ := hchar
  rw [branchEnds_token hbrace hbracket, TokenEnds, if_neg hquote, if_pos hnumber]

theorem branchEnds_keyword {length : ℕ} (hquote : input.byte start ≠ '"')
    (hnumber : isNumber (input.byte start) = false)
    (hlength : keywordAt input start = some length) :
    BranchEnds input start pos ↔ pos = start + length := by
  have hchar : input.byte start ≠ '{' ∧ input.byte start ≠ '[' := by
    refine ⟨fun heq => ?_, fun heq => ?_⟩
    · rw [keywordAt_of_byte (Or.inl heq)] at hlength
      cases hlength
    · rw [keywordAt_of_byte (Or.inr heq)] at hlength
      cases hlength
  rw [branchEnds_token hchar.1 hchar.2, TokenEnds, if_neg hquote, hnumber, if_neg (by decide),
    hlength]
  constructor
  · intro h
    obtain ⟨other, heq, hpos⟩ := h
    cases heq
    exact hpos
  · intro h
    exact ⟨length, rfl, h⟩

theorem branchEnds_brace (hbyte : input.byte start = '{') :
    BranchEnds input start pos ↔ ObjectEnds input (start + 1) pos := by
  constructor
  · intro h
    rcases h with h | ⟨_, h⟩ | ⟨heq, _⟩
    · exact absurd h (not_tokenEnds_of_byte (Or.inl hbyte))
    · exact h
    · rw [hbyte] at heq
      exact absurd heq (by decide)
  · exact fun h => Or.inr (Or.inl ⟨hbyte, h⟩)

theorem branchEnds_bracket (hbyte : input.byte start = '[') :
    BranchEnds input start pos ↔ ArrayEnds input (start + 1) pos := by
  constructor
  · intro h
    rcases h with h | ⟨heq, _⟩ | ⟨_, h⟩
    · exact absurd h (not_tokenEnds_of_byte (Or.inr hbyte))
    · rw [hbyte] at heq
      exact absurd heq (by decide)
    · exact h
  · exact fun h => Or.inr (Or.inr ⟨hbyte, h⟩)

theorem Leads.congr {E E' : ℕ → Prop} {r : EStateM.Result Abort ParseState (α × ℕ)}
    (h : Leads input E r) (hends : ∀ pos, E' pos ↔ E pos) : Leads input E' r := by
  rw [funext fun pos => propext (hends pos)]
  exact h

/-- A string leads to its end whatever value is made of its text. -/
theorem parseValueString_leads (f : Text → α) (hp : p ≤ input.size)
    (hs : s.reach ≤ input.size + 1) :
    Leads input (StringEnds input p)
      ((parseValueString input p >>= fun r => pure (f r.1, r.2)) s) := by
  rcases parseValueString_bounds hp hs with
    ⟨text, pos, s₂, hok, hstring, _, hreach⟩ | ⟨hopen, hbehind⟩
  · refine Or.inl ⟨_, pos, s₂, bind_ok hok, hreach,
      fun pos' => ⟨fun h => h.unique hstring, fun h => ?_⟩⟩
    rw [h]
    exact hstring
  · refine Or.inr ⟨hopen, fun a pos s' hok => Or.inl ?_⟩
    cases htext : parseValueString input p s with
    | error e s₂ =>
      rw [bind_error htext] at hok
      cases hok
    | ok r s₂ =>
      obtain ⟨text, stop⟩ := r
      rw [bind_ok htext] at hok
      cases hok
      exact (hbehind text _ _ htext).1

/-- What begins at a position of the text leads to its end if the containers do. -/
theorem parseBranch_leads (hstart : start < input.size) (hvalue : input.startsValue start = true)
    (hvalid : s.isValid = true) (hs : s.reach ≤ input.size + 1)
    (hobject : input.byte start = '{' → ∀ s₁, s₁.isValid = true → s₁.reach ≤ input.size + 1 →
      parseBranch input object array start p s = object (start + 1) s₁ →
        Leads input (ObjectEnds input (start + 1)) (object (start + 1) s₁))
    (harray : input.byte start = '[' → ∀ s₁, s₁.isValid = true → s₁.reach ≤ input.size + 1 →
      parseBranch input object array start p s = array (start + 1) s₁ →
        Leads input (ArrayEnds input (start + 1)) (array (start + 1) s₁)) :
    Leads input (BranchEnds input start) (parseBranch input object array start p s) := by
  obtain ⟨s₁, hread, _, hvalid₁, hreach₁⟩ :=
    (peeks_charAt (Nat.lt_succ_self start)).run (x := charAt input start) s
  have hrun : parseBranch input object array start p s = _ := bind_ok hread
  cases hquote : input.byte start == '"' with
  | true =>
    simp only [hquote, if_true] at hrun
    rw [hrun]
    have hstring := parseValueString_leads (s := s₁) (p := start + 1)
      (fun text => (Json.ofValue (.string text) : Json δ)) hstart (by omega)
    exact hstring.congr fun pos => branchEnds_quote (beq_iff_eq.mp hquote)
  | false =>
  have hnotQuote : input.byte start ≠ '"' := ne_of_beq_false hquote
  cases hnumber : isNumber (input.byte start) with
  | true =>
    simp only [hquote, hnumber, Bool.false_eq_true, if_false, if_true] at hrun
    rw [hrun]
    exact (parseValueNumber_leads hstart (by omega)).congr fun pos => branchEnds_number hnumber
  | false =>
  simp only [hquote, hnumber, Bool.false_eq_true, if_false] at hrun
  obtain ⟨s₂, hboolean, _, hvalid₂, hreach₂⟩ :=
    (peeks_isBoolean input start (Nat.le_refl _)).run s₁
  obtain ⟨s₃, hnull, _, hvalid₃, hreach₃⟩ :=
    (peeks_isNull input start (Nat.le_refl _)).run s₂
  have hkeyword : ∀ length, keywordAt input start = some length → ∀ pos,
      BranchEnds input start pos ↔ pos = start + length :=
    fun length hlength pos => branchEnds_keyword hnotQuote hnumber hlength
  cases hb : input.booleanAt start with
  | some b =>
    rw [hb] at hboolean
    cases b with
    | true =>
      exact Or.inl ⟨_, start + 4, s₂, hrun.trans (bind_ok hboolean), by omega,
        hkeyword 4 (by rw [keywordAt, hb])⟩
    | false =>
      exact Or.inl ⟨_, start + 5, s₂, hrun.trans (bind_ok hboolean), by omega,
        hkeyword 5 (by rw [keywordAt, hb])⟩
  | none =>
  rw [hb] at hboolean
  have hrest := hrun.trans ((bind_ok hboolean).trans (bind_ok hnull))
  cases hn : input.nullAt start with
  | true =>
    simp only [hn, if_true] at hrest
    exact Or.inl ⟨_, start + 4, s₃, hrest, by omega, hkeyword 4 (by rw [keywordAt, hb, hn]; rfl)⟩
  | false =>
  simp only [hn, Bool.false_eq_true, if_false] at hrest
  have hvalids : s₃.isValid = true := hvalid₃.trans (hvalid₂.trans (hvalid₁.trans hvalid))
  cases hbrace : input.byte start == '{' with
  | true =>
    have hbyte : input.byte start = '{' := beq_iff_eq.mp hbrace
    simp only [hbrace, if_true] at hrest
    rw [hrest]
    exact (hobject hbyte s₃ hvalids (by omega) hrest).congr fun pos => branchEnds_brace hbyte
  | false =>
  cases hbracket : input.byte start == '[' with
  | true =>
    have hbyte : input.byte start = '[' := beq_iff_eq.mp hbracket
    simp only [hbrace, hbracket, Bool.false_eq_true, if_false, if_true] at hrest
    rw [hrest]
    exact (harray hbyte s₃ hvalids (by omega) hrest).congr fun pos => branchEnds_bracket hbyte
  | false =>
    -- One of the branches is taken at the start of a value.
    simp [Input.startsValue, hquote, hnumber, hbrace, hbracket, hb, hn] at hvalue

end Branches

section Values

theorem tokenEnds_le (hp : p < input.size) (h : TokenEnds input p pos) : pos ≤ input.size := by
  unfold TokenEnds at h
  split at h
  · obtain ⟨q, hq, _, rfl⟩ := h
    exact hq
  · split at h
    · rcases h with ⟨hq, _⟩ | ⟨hq, _⟩
      · omega
      · omega
    · obtain ⟨length, hlength, rfl⟩ := h
      unfold keywordAt at hlength
      cases hb : input.booleanAt p with
      | some b =>
        rw [hb] at hlength
        cases b with
        | true =>
          cases hlength
          exact Nat.le_of_lt (booleanAt_true hb).2
        | false =>
          cases hlength
          exact Nat.le_of_lt (booleanAt_false hb).2
      | none =>
        rw [hb] at hlength
        cases hn : input.nullAt p with
        | true =>
          rw [hn] at hlength
          cases hlength
          exact Nat.le_of_lt (nullAt_true hn).2
        | false =>
          rw [hn] at hlength
          cases hlength

/-- Nothing begins with a closing bracket. -/
theorem not_branchEnds_of_closes (hclose : input.closes p = true) : ¬ BranchEnds input p pos := by
  have hchar : input.byte p ≠ '"' ∧ isNumber (input.byte p) = false ∧ input.byte p ≠ '{' ∧
      input.byte p ≠ '[' := by
    unfold Input.closes at hclose
    rw [Bool.or_eq_true, beq_iff_eq, beq_iff_eq] at hclose
    obtain hbyte | hbyte := hclose
    all_goals
      rw [hbyte]
      decide
  have hnone : keywordAt input p = none := by
    rw [keywordAt, booleanAt_of_closes hclose, nullAt_of_closes hclose]
    rfl
  intro h
  rcases h with h | ⟨hbyte, _⟩ | ⟨hbyte, _⟩
  · rw [TokenEnds, if_neg hchar.1, hchar.2.1, hnone] at h
    obtain ⟨length, hlength, _⟩ := h
    cases hlength
  · exact hchar.2.2.1 hbyte
  · exact hchar.2.2.2 hbyte

theorem not_valueAt {start : ℕ} (hnone : ∀ j, p ≤ j → j < input.size →
    (input.startsValue j || input.closes j) = false) : ¬ ValueAt input p start := by
  intro hat
  obtain ⟨hlt, hle, hmet, _⟩ := hat
  change (input.startsValue start || input.closes start) = true at hmet
  rw [hnone start hle hlt] at hmet
  cases hmet

/-- A value ends behind a separator, which is looked for where what begins it ends. -/
theorem valueEnds_iff {start : ℕ} (hat : ValueAt input p start) : ValueEnds input p q ↔
    input.closes start = true ∧ q = start ∨
      ∃ pos, BranchEnds input start pos ∧ pos ≤ input.size ∧ SeparatorEnds input pos q := by
  constructor
  · intro h
    cases h with
    | missing hnone => exact absurd hat (not_valueAt hnone)
    | bracket hat' hclose =>
      obtain rfl := hat.2.unique hat'.2
      exact Or.inl ⟨hclose, rfl⟩
    | token hat' htoken hnext =>
      obtain rfl := hat.2.unique hat'.2
      exact Or.inr ⟨_, Or.inl htoken, tokenEnds_le hat.1 htoken, hnext⟩
    | object hat' hbyte hobject hpos hnext =>
      obtain rfl := hat.2.unique hat'.2
      exact Or.inr ⟨_, Or.inr (Or.inl ⟨hbyte, hobject⟩), hpos, hnext⟩
    | array hat' hbyte harray hpos hnext =>
      obtain rfl := hat.2.unique hat'.2
      exact Or.inr ⟨_, Or.inr (Or.inr ⟨hbyte, harray⟩), hpos, hnext⟩
  · intro h
    rcases h with ⟨hclose, rfl⟩ | ⟨pos, htoken | ⟨hbyte, hobject⟩ | ⟨hbyte, harray⟩, hpos, hnext⟩
    · exact ValueEnds.bracket hat hclose
    · exact ValueEnds.token hat htoken hnext
    · exact ValueEnds.object hat hbyte hobject hpos hnext
    · exact ValueEnds.array hat hbyte harray hpos hnext

theorem lastScan_ends (res : Json δ) (hpos : pos ≤ input.size) (hs : s.reach ≤ input.size + 1) :
    ∃ q s', lastScan input (res, pos) s = .ok (res, q) s' ∧ s'.reach ≤ input.size + 1 ∧
      SeparatorEnds input pos q := by
  obtain ⟨q, exceeded, s₁, hscan, _, hreach, hle, hpassed, hend⟩ :=
    scanChar_run input (fun c => c == ',' || c == '}' || c == ']') pos s
  refine ⟨q, s₁, bind_ok hscan, by omega, ?_⟩
  rcases hend with ⟨_, hmet, hq, _⟩ | ⟨_, hsize, hq, _⟩
  · refine Or.inl ⟨?_, hle, hmet, hpassed⟩
    refine lt_size_of_byte_ne (by omega) fun hnul => ?_
    rw [hnul] at hmet
    exact absurd hmet (by decide)
  · exact Or.inr ⟨by omega, fun j hj hlt => hpassed j hj (by omega)⟩

/-- What leads to its end agrees with it once the next separator is looked for. -/
theorem Leads.lastScan {E : ℕ → Prop} {x : Parser (Json δ × ℕ)} (h : Leads input E (x s)) :
    Agrees input (fun q => ∃ pos, E pos ∧ pos ≤ input.size ∧ SeparatorEnds input pos q)
      ((x >>= lastScan input) s) := by
  rcases h with ⟨res, pos, s₁, hok, hreach, hends⟩ | ⟨hnone, hbehind⟩
  · rw [bind_ok hok]
    by_cases hpos : pos ≤ input.size
    · obtain ⟨q, s₂, hlast, hreach₂, hnext⟩ := lastScan_ends res hpos hreach
      refine Or.inl ⟨res, q, s₂, hlast, hreach₂, fun q' => ?_⟩
      constructor
      · intro h
        obtain ⟨pos', hpos', _, hnext'⟩ := h
        rw [(hends pos').mp hpos'] at hnext'
        exact hnext'.unique hnext
      · intro h
        rw [h]
        exact ⟨pos, (hends pos).mpr rfl, hpos, hnext⟩
    · refine Or.inr ⟨fun hfine => hpos ((fine_lastScan_iff res hreach).mp hfine), fun q h => ?_⟩
      obtain ⟨pos', hpos', hle, _⟩ := h
      rw [(hends pos').mp hpos'] at hle
      exact hpos hle
  · refine Or.inr ⟨fun hfine => ?_, fun q h => ?_⟩
    · obtain ⟨⟨res, pos⟩, s₁, hok, hreach, hlast⟩ :=
        (fine_bind_iff fun value => steady_lastScan value).mp hfine
      have hpos := (fine_lastScan_iff res hreach).mp hlast
      rcases hbehind res pos s₁ hok with hfar | hfar
      · omega
      · omega
    · obtain ⟨pos, hpos, _⟩ := h
      exact hnone pos hpos

variable [CharConv δ] {object array : ℕ → Parser (Json δ × ℕ)}

/-- A value agrees with its end in the text if the containers do. -/
theorem parseValueWith_agrees (hp : p ≤ input.size) (hvalid : s.isValid = true)
    (hs : s.reach ≤ input.size + 1)
    (hends : ∀ s', parseValueWith input object array p s ≠ .error .outOfFuel s')
    (hobject : ∀ start s₁, start < input.size → s₁.isValid = true →
      s₁.reach ≤ input.size + 1 → (∀ s', object (start + 1) s₁ ≠ .error .outOfFuel s') →
        Agrees input (ObjectEnds input (start + 1)) (object (start + 1) s₁))
    (harray : ∀ start s₁, start < input.size → s₁.isValid = true →
      s₁.reach ≤ input.size + 1 → (∀ s', array (start + 1) s₁ ≠ .error .outOfFuel s') →
        Agrees input (ArrayEnds input (start + 1)) (array (start + 1) s₁)) :
    Agrees input (ValueEnds input p) (parseValueWith input object array p s) := by
  obtain ⟨q, s₁, _, hreach, hle, hpassed, hend⟩ := parseValueWith_run (δ := δ) input p s
  have hreach₁ := hreach hp
  rcases hend with ⟨hmet, hin, hvalid₁, hrun⟩ | ⟨hsize, _, hrun⟩
  · have hq : q < input.size := by
      refine lt_size_of_byte_ne (by omega) fun hnul => ?_
      rw [startsValue_nul hnul, Input.closes, hnul] at hmet
      exact absurd hmet (by decide)
    have hat : ValueAt input p q := ⟨hq, hle, hmet, hpassed⟩
    cases hclose : input.closes q with
    | true =>
      obtain ⟨s₂, _, _, hreach₂, hok⟩ := valueTail_closes (δ := δ) p hclose s₁
      refine Or.inl ⟨.null, q, s₂, (hrun object array).trans (hok object array), by omega,
        fun q' => ?_⟩
      rw [valueEnds_iff hat]
      constructor
      · intro h
        rcases h with ⟨_, heq⟩ | ⟨pos, hbranch, _⟩
        · exact heq
        · exact absurd hbranch (not_branchEnds_of_closes hclose)
      · intro h
        exact Or.inl ⟨hclose, h⟩
    | false =>
      have hstart : input.startsValue q = true := by
        rw [hclose, Bool.or_false] at hmet
        exact hmet
      have hstay := stays_of_not_closes p hclose
      have htail : parseValueWith input object array p s =
          (parseBranch input object array q p >>= lastScan input) s₁ := by
        rw [hrun, valueTail_valid (hvalid₁.trans hvalid), hstay]
      have hgoes : ∀ s', parseBranch input object array q p s₁ ≠ .error .outOfFuel s' := by
        intro s' hout
        exact hends s' (htail.trans (bind_error hout))
      have hleads : Leads input (BranchEnds input q) (parseBranch input object array q p s₁) := by
        refine parseBranch_leads hq hstart (hvalid₁.trans hvalid) (by omega)
          (fun _ s₂ hvalid₂ hreach₂ heq => ?_) fun _ s₂ hvalid₂ hreach₂ heq => ?_
        · rw [heq] at hgoes
          exact (hobject q s₂ hq hvalid₂ hreach₂ hgoes).leads
        · rw [heq] at hgoes
          exact (harray q s₂ hq hvalid₂ hreach₂ hgoes).leads
      have hvalue : ValueEnds input p = fun q' =>
          ∃ pos, BranchEnds input q pos ∧ pos ≤ input.size ∧ SeparatorEnds input pos q' := by
        funext q'
        rw [valueEnds_iff hat, hclose]
        simp
      rw [htail, hvalue]
      exact hleads.lastScan
  · refine Or.inl ⟨.null, p, s₁, hrun object array, by omega, fun q' => ?_⟩
    constructor
    · intro h
      by_contra hne
      have hfree : ∀ {start : ℕ}, ¬ ValueAt input p start :=
        fun {start} => not_valueAt fun j hj hlt => hpassed j hj (by omega)
      cases h with
      | missing _ => exact hne rfl
      | bracket hat _ => exact hfree hat
      | token hat _ _ => exact hfree hat
      | object hat _ _ _ _ => exact hfree hat
      | array hat _ _ _ _ => exact hfree hat
    · intro h
      rw [h]
      exact ValueEnds.missing fun j hj hlt => hpassed j hj (by omega)

end Values

end OrderBookServer.JsonParse
