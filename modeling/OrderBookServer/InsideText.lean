import OrderBookServer.JsonBounds

/-!
Which texts are read inside. The turns of the two loops are followed up to the end of the
outermost container, and the ends of the containers in the text tell which runs of `parse`
look no further than the NUL.
-/
namespace OrderBookServer.JsonParse

variable {δ : Type} {input : Input} {p q pos r : ℕ} {s : ParseState}

section Ends

theorem objectEnds_close_iff (hbyte : input.byte p = '}') :
    ObjectEnds input p r ↔ r = p + 1 := by
  constructor
  · intro h
    cases h with
    | close _ => rfl
    | cut hopen _ _ _ => exact absurd hbyte hopen
    | turn hopen _ _ _ _ => exact absurd hbyte hopen
  · intro h
    rw [h]
    exact ObjectEnds.close hbyte

theorem arrayEnds_close_iff (hbyte : input.byte p = ']') : ArrayEnds input p r ↔ r = p + 1 := by
  constructor
  · intro h
    cases h with
    | close _ => rfl
    | cut hopen _ _ => exact absurd hbyte hopen
    | turn hopen _ _ _ => exact absurd hbyte hopen
  · intro h
    rw [h]
    exact ArrayEnds.close hbyte

theorem objectEnds_turn_iff (hbyte : input.byte p ≠ '}') (hkey : KeyEnds input p pos) :
    ObjectEnds input p r ↔ ∃ q, ValueEnds input pos q ∧
      (input.size ≤ q ∧ r = q + 1 ∨ q < input.size ∧ ObjectEnds input q r) := by
  constructor
  · intro h
    cases h with
    | close hclose => exact absurd hclose hbyte
    | cut _ hkey' hvalue hq =>
      obtain rfl := hkey.unique hkey'
      exact ⟨_, hvalue, Or.inl ⟨hq, rfl⟩⟩
    | turn _ hkey' hvalue hq hrest =>
      obtain rfl := hkey.unique hkey'
      exact ⟨_, hvalue, Or.inr ⟨hq, hrest⟩⟩
  · intro h
    obtain ⟨q, hvalue, ⟨hq, rfl⟩ | ⟨hq, hrest⟩⟩ := h
    · exact ObjectEnds.cut hbyte hkey hvalue hq
    · exact ObjectEnds.turn hbyte hkey hvalue hq hrest

theorem arrayEnds_turn_iff (hbyte : input.byte p ≠ ']') :
    ArrayEnds input p r ↔ ∃ q, ValueEnds input p q ∧
      (input.size ≤ q ∧ r = q + 1 ∨ q < input.size ∧ ArrayEnds input q r) := by
  constructor
  · intro h
    cases h with
    | close hclose => exact absurd hclose hbyte
    | cut _ hvalue hq => exact ⟨_, hvalue, Or.inl ⟨hq, rfl⟩⟩
    | turn _ hvalue hq hrest => exact ⟨_, hvalue, Or.inr ⟨hq, hrest⟩⟩
  · intro h
    obtain ⟨q, hvalue, ⟨hq, rfl⟩ | ⟨hq, hrest⟩⟩ := h
    · exact ArrayEnds.cut hbyte hvalue hq
    · exact ArrayEnds.turn hbyte hvalue hq hrest

/-- Without a key an object that is not closed has no end. -/
theorem not_objectEnds (hbyte : input.byte p ≠ '}') (hkey : ∀ pos, ¬ KeyEnds input p pos) :
    ¬ ObjectEnds input p r := by
  intro h
  cases h with
  | close hclose => exact hbyte hclose
  | cut _ hkey' _ _ => exact hkey _ hkey'
  | turn _ hkey' _ _ _ => exact hkey _ hkey'

end Ends

section Turns

variable {store : Json δ → Json δ}
  {next : Json δ → ℕ → ParseState → EStateM.Result Abort ParseState (Json δ × ℕ)}
  {value : EStateM.Result Abort ParseState (Json δ × ℕ)}

/-- A turn is only fine if its value is. -/
theorem fine_of_turnResult
    (hnext : ∀ res q s, s.reach ≤ (finalState (next res q s)).reach)
    (h : Fine input (turnResult input p store next value)) : Fine input value := by
  cases hvalue : value with
  | error e s₁ =>
    rw [hvalue, turnResult] at h
    obtain ⟨a, s', hok, _⟩ := h
    cases hok
  | ok x s₁ =>
    obtain ⟨v, q⟩ := x
    obtain ⟨a, s', hok, hreach⟩ := h
    refine ⟨_, s₁, rfl, ?_⟩
    rw [hvalue] at hok
    by_cases hsize : input.size ≤ q
    · rw [turnResult, if_pos hsize] at hok
      cases hok
      exact hreach
    · rw [turnResult, if_neg hsize] at hok
      have hgrows := hnext (store v) q { s₁ with turns := (p, q) :: s₁.turns }
      rw [hok, finalState] at hgrows
      exact Nat.le_trans hgrows hreach

/-- A turn agrees with its end if its value does, and if the turns that follow do. -/
theorem turnResult_agrees {V E : ℕ → Prop} {rest : ℕ → ℕ → Prop} (hvalue : Agrees input V value)
    (hE : ∀ r, E r ↔ ∃ q, V q ∧ (input.size ≤ q ∧ r = q + 1 ∨ q < input.size ∧ rest q r))
    (hgrows : ∀ res q s, s.reach ≤ (finalState (next res q s)).reach)
    (hends : ∀ s', turnResult input p store next value ≠ .error .outOfFuel s')
    (hnext : ∀ v q s₁, value = .ok (v, q) s₁ → q < input.size → s₁.reach ≤ input.size + 1 →
      (∀ s', next (store v) q { s₁ with turns := (p, q) :: s₁.turns } ≠ .error .outOfFuel s') →
        Agrees input (rest q) (next (store v) q { s₁ with turns := (p, q) :: s₁.turns })) :
    Agrees input E (turnResult input p store next value) := by
  rcases hvalue with ⟨v, q, s₁, hok, hreach, hV⟩ | ⟨hnot, hnone⟩
  · have hE' : ∀ r, E r ↔ input.size ≤ q ∧ r = q + 1 ∨ q < input.size ∧ rest q r := by
      intro r
      rw [hE]
      constructor
      · intro h
        obtain ⟨q', hq', hcases⟩ := h
        rw [(hV q').mp hq'] at hcases
        exact hcases
      · intro h
        exact ⟨q, (hV q).mpr rfl, h⟩
    by_cases hsize : input.size ≤ q
    · rw [hok, turnResult, if_pos hsize]
      refine Or.inl ⟨store v, q + 1, _, rfl, hreach, fun r => ?_⟩
      rw [hE']
      omega
    · have hq : q < input.size := Nat.not_le.mp hsize
      have hrest := hnext v q s₁ hok hq hreach
      rw [hok, turnResult, if_neg hsize] at hends
      rw [hok, turnResult, if_neg hsize]
      have heq : E = rest q := by
        funext r
        rw [hE']
        simp [hsize, hq]
      rw [heq]
      exact hrest hends
  · refine Or.inr ⟨fun hfine => hnot (fine_of_turnResult hgrows hfine), fun r h => ?_⟩
    obtain ⟨q, hq, _⟩ := (hE r).mp h
    exact hnone q hq

end Turns

section Readers

variable [CharConv δ]

theorem fine_parseValue {fuel : ℕ}
    (h : Fine input (parseValue input fuel p s : EStateM.Result _ _ (Json δ × ℕ))) :
    p ≤ input.size ∧ s.reach ≤ input.size + 1 := by
  obtain ⟨hobject, harray, hvalue⟩ := steady_readers (δ := δ) input (fuel - 1)
  refine ⟨?_, ?_⟩
  · obtain ⟨a, s', hok, hreach⟩ := h
    cases fuel with
    | zero =>
      rw [parseValue_zero] at hok
      cases hok
    | succ fuel =>
      have hfar := parseValueWith_reaches input (hobject .null) (harray .null 0) p s
      rw [parseValue_succ] at hok
      rw [Nat.add_sub_cancel, hok, finalState] at hfar
      omega
  · by_contra hfar
    exact not_fine_of_reach ((steady_readers input fuel).2.2 p) (Nat.not_le.mp hfar) h

/-- The reader of an object agrees with its end, unless it runs out of fuel. -/
def ObjectAgrees (δ : Type) [CharConv δ] (input : Input) (fuel : ℕ) : Prop :=
  ∀ (res : Json δ) (p : ℕ) (s : ParseState), p ≤ input.size → s.reach ≤ input.size + 1 →
    (s.isValid = true ∨ Blocked input p) →
    (∀ s', parseObject input fuel res p s ≠ .error .outOfFuel s') →
    Agrees input (ObjectEnds input p) (parseObject input fuel res p s)

def ArrayAgrees (δ : Type) [CharConv δ] (input : Input) (fuel : ℕ) : Prop :=
  ∀ (res : Json δ) (index p : ℕ) (s : ParseState), p ≤ input.size →
    s.reach ≤ input.size + 1 → (s.isValid = true ∨ Blocked input p) →
    (∀ s', parseArray input fuel res index p s ≠ .error .outOfFuel s') →
    Agrees input (ArrayEnds input p) (parseArray input fuel res index p s)

def ValueAgrees (δ : Type) [CharConv δ] (input : Input) (fuel : ℕ) : Prop :=
  ∀ (p : ℕ) (s : ParseState), p ≤ input.size → s.reach ≤ input.size + 1 → s.isValid = true →
    (∀ s', (parseValue input fuel p s : EStateM.Result _ _ (Json δ × ℕ)) ≠
      .error .outOfFuel s') →
    Agrees input (ValueEnds input p)
      (parseValue input fuel p s : EStateM.Result _ _ (Json δ × ℕ))

variable {fuel : ℕ}

/-- Where a value ends in the text the reader is valid, or blocked. -/
theorem valid_or_blocked_of_parseValue (hp : p ≤ input.size) (hvalid : s.isValid = true)
    {v : Json δ} {q : ℕ} {s' : ParseState} (hok : parseValue input fuel p s = .ok (v, q) s')
    (hq : q < input.size) : s'.isValid = true ∨ Blocked input q := by
  have hstart : Placed input p s := by
    refine ⟨fun _ => hp, fun hv => ?_⟩
    rw [hvalid] at hv
    cases hv
  have hlanded := (((readers_sound input fuel).2.2 p p s hstart
    (Or.inl (Nat.le_refl p))).lands v q s' hok).2
  cases hv : s'.isValid with
  | true => exact Or.inl rfl
  | false => exact Or.inr ((hlanded.2 hv).resolve_left (by omega))

theorem objectAgrees_succ (hobject : ObjectAgrees δ input fuel)
    (hvalue : ValueAgrees δ input fuel) : ObjectAgrees δ input (fuel + 1) := by
  intro res p s hp hs hvalid hends
  have hgrows : ∀ (res : Json δ) q s,
      s.reach ≤ (finalState (parseObject input fuel res q s)).reach :=
    fun res q s => ((steady_readers input fuel).1 res q).grows s
  by_cases hbyte : input.byte p = '}'
  · obtain ⟨s₁, _, _, hreach, hok⟩ := parseObject_close hbyte res s
    have hlt : p < input.size := lt_size_of_byte_ne hp (by rw [hbyte]; decide)
    exact Or.inl ⟨res, p + 1, s₁, hok fuel, by omega, fun r => objectEnds_close_iff hbyte⟩
  · obtain ⟨s₁, _, hvalid₁, hreach₁, hfails, hgoes⟩ := parseObject_open hbyte res s
    rcases parseKey_bounds (s := s₁) hp (by omega) with
      ⟨key, pos, s₂, hok, hkey, hvalid₂, hreach₂⟩ | ⟨hnokey, hfar⟩
    · have hv : s₂.isValid = true := by
        rw [hvalid₂, hvalid₁]
        exact hvalid.resolve_right fun hblocked => not_keyEnds_of_blocked hblocked hkey
      have hrun := hgoes key pos s₂ hok fuel
      rw [hrun] at hends
      rw [hrun]
      have hagrees := hvalue pos s₂ hkey.le hreach₂ hv fun s' hout => by
        rw [hout, turnResult] at hends
        exact hends s' rfl
      refine turnResult_agrees hagrees (fun r => objectEnds_turn_iff hbyte hkey) hgrows hends
        fun v q s₃ hok₃ hq hreach₃ => ?_
      have hplaced := valid_or_blocked_of_parseValue hkey.le hv hok₃ hq
      exact hobject _ q _ (by omega) hreach₃ hplaced
    · refine Or.inr ⟨fun hfine => ?_, fun r => not_objectEnds hbyte hnokey⟩
      cases hkey : parseKey input p s₁ with
      | error e s₂ =>
        rw [hfails e s₂ hkey fuel] at hfine
        obtain ⟨a, s', hok, _⟩ := hfine
        cases hok
      | ok x s₂ =>
        obtain ⟨key, pos⟩ := x
        rw [hgoes key pos s₂ hkey fuel] at hfine
        obtain ⟨hpos, hreach⟩ := fine_parseValue (fine_of_turnResult hgrows hfine)
        rcases hfar key pos s₂ hkey with hbehind | hbehind
        · omega
        · omega

theorem arrayAgrees_succ (harray : ArrayAgrees δ input fuel) (hvalue : ValueAgrees δ input fuel) :
    ArrayAgrees δ input (fuel + 1) := by
  intro res index p s hp hs hvalid hends
  by_cases hbyte : input.byte p = ']'
  · obtain ⟨s₁, _, _, hreach, hok⟩ := parseArray_close hbyte res index s
    have hlt : p < input.size := lt_size_of_byte_ne hp (by rw [hbyte]; decide)
    exact Or.inl ⟨res, p + 1, s₁, hok fuel, by omega, fun r => arrayEnds_close_iff hbyte⟩
  · have hfree : ¬ Blocked input p := by
      intro hblocked
      obtain ⟨s', hout⟩ := parseArray_stuck (fuel + 1) res index
        ⟨hblocked.1, hbyte, Or.inl hblocked⟩ s
      exact hends s' hout
    obtain ⟨s₁, _, _, hvalid₁, hreach₁, hrun⟩ := parseArray_turn hbyte res index s
    have hv : s₁.isValid = true := hvalid₁.trans (hvalid.resolve_right hfree)
    rw [hrun] at hends
    rw [hrun]
    have hagrees := hvalue p s₁ hp (by omega) hv fun s' hout => by
      rw [hout, turnResult] at hends
      exact hends s' rfl
    refine turnResult_agrees hagrees (fun r => arrayEnds_turn_iff hbyte)
      (fun res q s => ((steady_readers input fuel).2.1 res (index + 1) q).grows s) hends
      fun v q s₂ hok₂ hq hreach₂ => ?_
    have hplaced := valid_or_blocked_of_parseValue hp hv hok₂ hq
    exact harray _ (index + 1) q _ (by omega) hreach₂ hplaced

theorem valueAgrees_succ (hobject : ObjectAgrees δ input fuel) (harray : ArrayAgrees δ input fuel) :
    ValueAgrees δ input (fuel + 1) := by
  intro p s hp hs hvalid hends
  rw [parseValue_succ] at hends
  rw [parseValue_succ]
  refine parseValueWith_agrees hp hvalid hs hends (fun start s₁ hstart hv hreach hgoes => ?_)
    fun start s₁ hstart hv hreach hgoes => ?_
  · exact hobject .null (start + 1) s₁ hstart hreach (Or.inl hv) hgoes
  · exact harray .null 0 (start + 1) s₁ hstart hreach (Or.inl hv) hgoes

/-- The readers agree with the ends of what they read, unless they run out of fuel. -/
theorem readers_agree (input : Input) (fuel : ℕ) :
    ObjectAgrees δ input fuel ∧ ArrayAgrees δ input fuel ∧ ValueAgrees δ input fuel := by
  induction fuel with
  | zero =>
    refine ⟨fun res p s _ _ _ hends => ?_, fun res index p s _ _ _ hends => ?_,
      fun p s _ _ _ hends => ?_⟩
    · exact absurd (parseObject_zero res s) (hends s)
    · exact absurd (parseArray_zero res index s) (hends s)
    · exact absurd (parseValue_zero s) (hends s)
  | succ fuel ih =>
    obtain ⟨hobject, harray, hvalue⟩ := ih
    exact ⟨objectAgrees_succ hobject hvalue, arrayAgrees_succ harray hvalue,
      valueAgrees_succ hobject harray⟩

end Readers

section Parse

variable [CharConv δ]

/-- The container that `parse` reads, before it looks at the flag. -/
def outermost (input : Input) (fuel : ℕ) : Parser (Json δ × ℕ) := do
  let (start, _) ← scanChar input (fun c => c == '{' || c == '[') 0
  let c ← charAt input start
  if c == '{' then parseObject input fuel .null (start + 1)
  else parseArray input fuel .null 0 (start + 1)

variable (δ) in
/-- The outermost container is left behind a closing bracket of the text. -/
def OutermostClosed (input : Input) (fuel : ℕ) : Prop :=
  ∃ (res : Json δ) (p : ℕ) (s : ParseState), outermost input fuel initial = .ok (res, p + 1) s ∧
    p < input.size ∧ input.closes p = true

variable (δ) in
/-- `parse` returns, has read nothing behind the NUL, and gives null where the text ends
before the outermost container is closed. -/
def StaysInside (input : Input) (fuel : ℕ) : Prop :=
  ∃ (res : Json δ) (s : ParseState), parse input fuel initial = .ok res s ∧
    s.reach ≤ input.size + 1 ∧ (¬ OutermostClosed δ input fuel → res = .ofValue .null)

/-- The container that begins at `start` is followed at `q`. -/
def ContainerEnds (input : Input) (start q : ℕ) : Prop :=
  input.byte start = '{' ∧ ObjectEnds input (start + 1) q ∨
    input.byte start = '[' ∧ ArrayEnds input (start + 1) q

/-- The text is empty, or from its first opening bracket on every key and every string ends
in the text, and so does every container but the outermost one. -/
def EndsInside (input : Input) : Prop :=
  input.size = 0 ∨ ∃ start q, start < input.size ∧
    FirstAt (fun i => input.byte i == '{' || input.byte i == '[') 0 start ∧
    ContainerEnds input start q

theorem parse_eq (hsize : input.size ≠ 0) (fuel : ℕ) :
    (parse input fuel initial : EStateM.Result _ _ (Json δ)) =
      (outermost input fuel >>= finish) initial := by
  obtain ⟨start, exceeded, s₁, hscan, _⟩ :=
    scanChar_run input (fun c => c == '{' || c == '[') 0 initial
  have hread : charAt input start s₁ =
      .ok (input.byte start) { s₁ with reach := max s₁.reach (start + 1) } := rfl
  have houter : (outermost input fuel : Parser (Json δ × ℕ)) initial = _ :=
    (bind_ok hscan).trans (bind_ok hread)
  rw [parse, if_neg hsize, bind_run_congr houter]
  refine (bind_ok hscan).trans ((bind_ok hread).trans ?_)
  split <;> rfl

/-- The first scan of `parse` comes to the first opening bracket, or to the end of the text. -/
theorem outermost_run (hsize : input.size ≠ 0) :
    (∃ start s, start < input.size ∧
        FirstAt (fun i => input.byte i == '{' || input.byte i == '[') 0 start ∧
        s.isValid = true ∧ s.reach ≤ input.size + 1 ∧
        ∀ fuel, (outermost input fuel : Parser (Json δ × ℕ)) initial =
          (if input.byte start == '{' then parseObject input fuel .null (start + 1)
            else parseArray input fuel .null 0 (start + 1)) s) ∨
      (∀ j, j < input.size → (input.byte j == '{' || input.byte j == '[') = false) ∧
        ∃ s, s.isValid = false ∧ ∀ fuel, (outermost input fuel : Parser (Json δ × ℕ)) initial =
          parseArray input fuel .null 0 (input.size + 1) s := by
  obtain ⟨start, exceeded, s₁, hscan, _, hreach, _, hpassed, hend⟩ :=
    scanChar_run input (fun c => c == '{' || c == '[') 0 initial
  have hread : charAt input start s₁ =
      .ok (input.byte start) { s₁ with reach := max s₁.reach (start + 1) } := rfl
  have houter : ∀ fuel, (outermost input fuel : Parser (Json δ × ℕ)) initial = _ :=
    fun fuel => (bind_ok hscan).trans (bind_ok hread)
  have hinitial : initial.reach = 0 := rfl
  rcases hend with ⟨_, hmet, hstart, hvalid⟩ | ⟨_, hout, hstart, hinvalid⟩
  · have hlt : start < input.size := by omega
    refine Or.inl ⟨start, { s₁ with reach := max s₁.reach (start + 1) }, hlt,
      ⟨Nat.zero_le _, hmet, hpassed⟩, hvalid, ?_, houter⟩
    change max s₁.reach (start + 1) ≤ input.size + 1
    omega
  · have heq : start = input.size := by omega
    have hnul : (input.byte start == '{') = false := by
      rw [heq, byte_size]
      decide
    refine Or.inr ⟨fun j hj => hpassed j (Nat.zero_le j) (by omega),
      { s₁ with reach := max s₁.reach (start + 1) }, hinvalid, fun fuel => ?_⟩
    rw [houter, hnul, heq]
    rfl

/-- An array is read at the position it begins at. -/
theorem fine_parseArray {fuel index : ℕ} {res : Json δ}
    (h : Fine input (parseArray input fuel res index p s)) : p ≤ input.size := by
  cases fuel with
  | zero =>
    obtain ⟨a, s', hok, _⟩ := h
    rw [parseArray_zero] at hok
    cases hok
  | succ fuel =>
    by_cases hbyte : input.byte p = ']'
    · obtain ⟨s₁, _, _, hreach, hok⟩ := parseArray_close hbyte res index s
      obtain ⟨a, s', hok', hreach'⟩ := h
      rw [hok fuel] at hok'
      cases hok'
      omega
    · obtain ⟨s₁, _, _, _, _, hrun⟩ := parseArray_turn hbyte res index s
      rw [hrun] at h
      have hsteady := (steady_readers (δ := δ) input fuel).2.1
      exact (fine_parseValue (fine_of_turnResult
        (fun res q s => (hsteady res (index + 1) q).grows s) h)).1

omit [CharConv δ] in
theorem steady_finish (x : Json δ × ℕ) : Steady (finish x) :=
  Steady.check (Steady.pure _) (Steady.pure _)

/-- A container that ends in the text ends with a closing bracket. -/
def ClosedBefore (input : Input) (q : ℕ) : Prop :=
  q ≤ input.size → ∃ k, q = k + 1 ∧ input.closes k = true

theorem ObjectEnds.closed {p q : ℕ} (h : ObjectEnds input p q) : ClosedBefore input q := by
  -- Keys and values on the way say nothing of the last bracket.
  refine @ObjectEnds.rec input (fun _ q _ => ClosedBefore input q) (fun _ _ _ => True)
    (fun _ _ _ => True) ?_ ?_ ?_ ?_ ?_ ?_ ?_ ?_ ?_ ?_ ?_ p q h
  · intro p hbyte _
    exact ⟨p, rfl, by simp [Input.closes, hbyte]⟩
  · intro p pos q _ _ _ hq _ hle
    omega
  · intro p pos q r _ _ _ _ _ _ hclosed
    exact hclosed
  all_goals
    intros
    trivial

theorem ArrayEnds.closed {p q : ℕ} (h : ArrayEnds input p q) : ClosedBefore input q := by
  refine @ArrayEnds.rec input (fun _ _ _ => True) (fun _ q _ => ClosedBefore input q)
    (fun _ _ _ => True) ?_ ?_ ?_ ?_ ?_ ?_ ?_ ?_ ?_ ?_ ?_ p q h
  case refine_4 =>
    intro p hbyte _
    exact ⟨p, rfl, by simp [Input.closes, hbyte]⟩
  case refine_5 =>
    intro p q _ _ hq _ hle
    omega
  case refine_6 =>
    intro p q r _ _ _ _ _ hclosed
    exact hclosed
  all_goals
    intros
    trivial

theorem ContainerEnds.closed {start : ℕ} (h : ContainerEnds input start q) (hq : q ≤ input.size) :
    ∃ k, q = k + 1 ∧ input.closes k = true := by
  rcases h with ⟨_, hobject⟩ | ⟨_, harray⟩
  · exact hobject.closed hq
  · exact harray.closed hq

/-- The outermost container agrees with its end, and behind the text the reader is invalid. -/
theorem container_agrees {start fuel : ℕ} (hstart : start < input.size)
    (hbyte : (input.byte start == '{' || input.byte start == '[') = true)
    (hvalid : s.isValid = true) (hs : s.reach ≤ input.size + 1)
    {x : Parser (Json δ × ℕ)} (hx : x = if input.byte start == '{' then
      parseObject input fuel .null (start + 1) else parseArray input fuel .null 0 (start + 1))
    (hends : ∀ s', x s ≠ .error .outOfFuel s') :
    Agrees input (ContainerEnds input start) (x s) ∧
      ∀ res q s', x s = .ok (res, q) s' → input.size < q → s'.isValid = false := by
  have hplaced : Placed input (start + 1) s := by
    refine ⟨fun _ => hstart, fun hv => ?_⟩
    rw [hvalid] at hv
    cases hv
  obtain ⟨soundObject, soundArray, _⟩ := readers_sound (δ := δ) input fuel
  obtain ⟨agreeObject, agreeArray, _⟩ := readers_agree (δ := δ) input fuel
  have hbehind : ∀ {q : ℕ} {s' : ParseState}, Placed input q s' → input.size < q →
      s'.isValid = false := by
    intro q s' hq hout
    cases hv : s'.isValid with
    | false => rfl
    | true =>
      have hin := hq.1 hv
      omega
  cases hbrace : input.byte start == '{' with
  | true =>
    have hcontainer : ContainerEnds input start = ObjectEnds input (start + 1) := by
      funext q
      simp [ContainerEnds, beq_iff_eq.mp hbrace]
    rw [hbrace, if_pos rfl] at hx
    subst hx
    rw [hcontainer]
    refine ⟨agreeObject .null _ s hstart hs (Or.inl hvalid) hends, fun res q s' hok hout => ?_⟩
    exact hbehind ((soundObject .null _ s hplaced hstart).lands res q s' hok).2 hout
  | false =>
    rw [hbrace, Bool.false_or, beq_iff_eq] at hbyte
    have hcontainer : ContainerEnds input start = ArrayEnds input (start + 1) := by
      funext q
      simp [ContainerEnds, hbyte]
    rw [hbrace, if_neg (by decide)] at hx
    subst hx
    rw [hcontainer]
    refine ⟨agreeArray .null 0 _ s hstart hs (Or.inl hvalid) hends, fun res q s' hok hout => ?_⟩
    exact hbehind ((soundArray .null 0 _ s hplaced).lands res q s' hok).2 hout

/-- A run of `parse` that comes to an end stays inside the text exactly where every key and
every string ends there, and every container but the outermost one. -/
theorem staysInside_iff (fuel : ℕ) (hends : ∀ s,
      (parse input fuel initial : EStateM.Result _ _ (Json δ)) ≠ .error .outOfFuel s) :
    StaysInside δ input fuel ↔ EndsInside input := by
  by_cases hsize : input.size = 0
  · refine ⟨fun _ => Or.inl hsize,
      fun _ => ⟨.ofValue .null, initial, ?_, Nat.zero_le _, fun _ => rfl⟩⟩
    rw [parse, if_pos hsize]
    rfl
  have hparse := parse_eq (δ := δ) hsize fuel
  have hfine : StaysInside δ input fuel →
      Fine input ((outermost input fuel : Parser (Json δ × ℕ)) initial) := by
    intro h
    obtain ⟨res, s, hok, hreach, _⟩ := h
    obtain ⟨x, s₁, hrun, hreach₁, _⟩ := (fine_bind_iff fun x => steady_finish x).mp
      ⟨res, s, hparse.symm.trans hok, hreach⟩
    exact ⟨x, s₁, hrun, hreach₁⟩
  rcases outermost_run (δ := δ) hsize with
    ⟨start, s, hstart, hfirst, hvalid, hreach, houter⟩ | ⟨hnone, s, _, houter⟩
  · have hgoes : ∀ s', (outermost input fuel : Parser (Json δ × ℕ)) initial ≠
        .error .outOfFuel s' := by
      intro s' hout
      exact hends s' (hparse.trans (bind_error hout))
    rw [houter] at hgoes
    obtain ⟨hagrees, hbehind⟩ :=
      container_agrees hstart hfirst.2.1 hvalid hreach rfl hgoes
    rw [← houter] at hagrees hbehind
    constructor
    · intro h
      rcases hagrees with ⟨_, q, _, _, _, hcontainer⟩ | ⟨hnot, _⟩
      · exact Or.inr ⟨start, q, hstart, hfirst, (hcontainer q).mpr rfl⟩
      · exact absurd (hfine h) hnot
    · intro h
      rcases h with hzero | ⟨start', q', _, hfirst', hends'⟩
      · exact absurd hzero hsize
      obtain rfl := hfirst.unique hfirst'
      rcases hagrees with ⟨v, q, s₁, hok, hreach₁, hcontainer⟩ | ⟨_, hnone⟩
      · obtain ⟨res, hfinish⟩ := finish_ok (v, q) s₁
        refine ⟨res, s₁, (hparse.trans (bind_ok hok)).trans hfinish, hreach₁, fun hopen => ?_⟩
        by_cases hq : q ≤ input.size
        · obtain ⟨k, rfl, hclose⟩ := ((hcontainer q).mpr rfl).closed hq
          exact absurd ⟨v, k, s₁, hok, hq, hclose⟩ hopen
        · have hinvalid := hbehind v q s₁ hok (Nat.not_le.mp hq)
          have hget : (get : Parser ParseState) s₁ = .ok s₁ s₁ := rfl
          have hnull : finish (v, q) s₁ = .ok (.ofValue .null) s₁ := by
            rw [finish, bind_ok hget, hinvalid]
            rfl
          rw [hnull] at hfinish
          cases hfinish
          rfl
      · exact absurd hends' (hnone q')
  · constructor
    · intro h
      have houtside := hfine h
      rw [houter] at houtside
      have hin := fine_parseArray houtside
      omega
    · intro h
      rcases h with hzero | ⟨start, q, hstart, ⟨_, hmet, _⟩, _⟩
      · exact absurd hzero hsize
      · change (input.byte start == '{' || input.byte start == '[') = true at hmet
        rw [hnone start hstart] at hmet
        cases hmet

end Parse

/-- A text that ends behind a key is read inside, to null. -/
theorem staysInside_cutKey : StaysInside Empty ⟨['{', '"', 'a', '"'], fun _ => '\x00'⟩ 3 := by
  refine (staysInside_iff 3 fun s hout => ?_).mpr (Or.inr ⟨0, 5, by decide, ?_, Or.inl ⟨rfl, ?_⟩⟩)
  · have hvalue : parseObject ⟨['{', '"', 'a', '"'], fun _ => '\x00'⟩ 3 (.null : Json Empty) 1
        ⟨true, 1, [], []⟩ = .ok (Json.setKey .null ['a'] .null, 5) ⟨false, 5, [], []⟩ := by
      rw [parseObject]
      simp only [parseValue]
      rfl
    have hrun : parse ⟨['{', '"', 'a', '"'], fun _ => '\x00'⟩ 3 initial =
        (parseObject ⟨['{', '"', 'a', '"'], fun _ => '\x00'⟩ 3 (.null : Json Empty) 1 >>= finish)
          ⟨true, 1, [], []⟩ := rfl
    rw [hrun, bind_ok hvalue] at hout
    cases hout
  · exact ⟨Nat.le_refl 0, rfl, fun j _ hlt => absurd hlt (Nat.not_lt_zero j)⟩
  · have hsize : Input.size ⟨['{', '"', 'a', '"'], fun _ => '\x00'⟩ = 4 := rfl
    have hkey : KeyEnds ⟨['{', '"', 'a', '"'], fun _ => '\x00'⟩ 1 4 := by
      refine ⟨1, by decide, ⟨Nat.le_refl 1, rfl, fun j hj hlt => by omega⟩,
        Or.inr ⟨rfl, 3, by decide, ⟨by decide, rfl, fun j hj hlt => ?_⟩, rfl⟩⟩
      have heq : j = 2 := by omega
      rw [heq]
      rfl
    exact ObjectEnds.cut (by decide) hkey (ValueEnds.missing fun j hj hlt => by omega) (by decide)

theorem not_staysInside_openBrace :
    (∀ s, (parse ⟨['{'], fun _ => '\x00'⟩ 2 initial : EStateM.Result _ _ (Json Empty)) ≠
      .error .outOfFuel s) ∧ ¬ StaysInside Empty ⟨['{'], fun _ => '\x00'⟩ 2 := by
  have hobject : parseObject ⟨['{'], fun _ => '\x00'⟩ 2 (.null : Json Empty) 1 ⟨true, 1, [], []⟩ =
      .error .outOfRange ⟨false, 4, [], []⟩ := by
    rw [parseObject]
    rfl
  have hrun : parse ⟨['{'], fun _ => '\x00'⟩ 2 initial =
      (parseObject ⟨['{'], fun _ => '\x00'⟩ 2 (.null : Json Empty) 1 >>= finish)
        ⟨true, 1, [], []⟩ := rfl
  have hfails := hrun.trans (bind_error hobject)
  refine ⟨fun s hout => ?_, fun h => ?_⟩
  · rw [hfails] at hout
    cases hout
  · obtain ⟨res, s, hok, _⟩ := h
    rw [hfails] at hok
    cases hok

end OrderBookServer.JsonParse
