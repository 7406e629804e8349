import OrderBookServer.InsideText

/-!
Which texts are read to an end. The turns of the two loops are followed through the text alone,
by the ends of the keys and of the values that they pass: the reader comes to an end exactly where
none of them is a turn of the array loop that cannot get away.
-/
namespace OrderBookServer.JsonParse

variable {δ α β γ : Type} {input : Input} {p q pos : ℕ} {s : ParseState}

mutual

/-- In the rest of an object, from `p` on, there is an array loop that comes to a stuck
position. -/
inductive ObjectSticks (input : Input) : ℕ → Prop
  | value {p pos : ℕ} (hbyte : input.byte p ≠ '}') (hkey : KeyEnds input p pos)
      (hvalue : ValueSticks input pos) : ObjectSticks input p
  | turn {p pos q : ℕ} (hbyte : input.byte p ≠ '}') (hkey : KeyEnds input p pos)
      (hvalue : ValueEnds input pos q) (hq : q < input.size) (hrest : ObjectSticks input q) :
      ObjectSticks input p

/-- The array loop at `p` comes to a stuck position, or one inside its values does. -/
inductive ArraySticks (input : Input) : ℕ → Prop
  | here {p : ℕ} (hstuck : Stuck input p) : ArraySticks input p
  | value {p : ℕ} (hbyte : input.byte p ≠ ']') (hvalue : ValueSticks input p) :
      ArraySticks input p
  | turn {p q : ℕ} (hbyte : input.byte p ≠ ']') (hvalue : ValueEnds input p q)
      (hq : q < input.size) (hrest : ArraySticks input q) : ArraySticks input p

/-- The value that is looked for from `p` on is a container with such a loop. -/
inductive ValueSticks (input : Input) : ℕ → Prop
  | object {p start : ℕ} (hat : ValueAt input p start) (hbyte : input.byte start = '{')
      (hobject : ObjectSticks input (start + 1)) : ValueSticks input p
  | array {p start : ℕ} (hat : ValueAt input p start) (hbyte : input.byte start = '[')
      (harray : ArraySticks input (start + 1)) : ValueSticks input p

end

/-- From the first opening bracket of the text on, an array loop comes to a stuck position. -/
def Sticks (input : Input) : Prop :=
  ∃ start, start < input.size ∧
    FirstAt (fun i => input.byte i == '{' || input.byte i == '[') 0 start ∧
    (input.byte start = '{' ∧ ObjectSticks input (start + 1) ∨
      input.byte start = '[' ∧ ArraySticks input (start + 1))

/-- What the program returns is at `p` or further on, and unless it is behind the text no byte
behind the NUL was read. -/
def Near (input : Input) (p : ℕ) (x : Parser (α × ℕ)) : Prop :=
  ∀ s a q s', x s = .ok (a, q) s' →
    p ≤ q ∧ (q ≤ input.size → s'.reach ≤ max s.reach (input.size + 1))

section Rules

theorem Near.pure {a : α} (h : p ≤ q) : Near input p (pure (a, q) : Parser (α × ℕ)) := by
  intro s a' q' s' hok
  cases hok
  exact ⟨h, fun _ => Nat.le_max_left ..⟩

theorem Near.throw (e : Abort) : Near input p (throw e : Parser (α × ℕ)) := by
  intro s a q s' hok
  cases hok

theorem Near.weaken {x : Parser (α × ℕ)} (h : Near input q x) (hle : p ≤ q) : Near input p x := by
  intro s a q' s' hok
  obtain ⟨hq, hreach⟩ := h s a q' s' hok
  exact ⟨hle.trans hq, hreach⟩

theorem Near.ite {c : Prop} [Decidable c] {x y : Parser (α × ℕ)} (hx : Near input p x)
    (hy : Near input p y) : Near input p (if c then x else y) := by
  by_cases hc : c
  · rwa [if_pos hc]
  · rwa [if_neg hc]

theorem Near.bind {x : Parser (α × ℕ)} {f : α × ℕ → Parser (β × ℕ)} (hx : Near input p x)
    (hf : ∀ a q, p ≤ q → Near input q (f (a, q))) : Near input p (x >>= f) := by
  intro s b r s' hok
  cases hrun : x s with
  | error e s₁ =>
    rw [bind_error hrun] at hok
    cases hok
  | ok v s₁ =>
    obtain ⟨a, q⟩ := v
    rw [bind_ok hrun] at hok
    obtain ⟨hpq, hreach⟩ := hx s a q s₁ hrun
    obtain ⟨hqr, hreach'⟩ := hf a q hpq s₁ b r s' hok
    refine ⟨hpq.trans hqr, fun hr => ?_⟩
    have hfirst := hreach (hqr.trans hr)
    have hsecond := hreach' hr
    omega

/-- A program that does not move the position, and from `p` in the text looks at most at the
NUL. -/
def Glances (input : Input) (p : ℕ) (x : Parser γ) : Prop :=
  ∀ s c s', x s = .ok c s' → p ≤ input.size → s'.reach ≤ max s.reach (input.size + 1)

theorem Near.glance {x : Parser γ} {f : γ → Parser (α × ℕ)} (hx : Glances input p x)
    (hf : ∀ c, Near input p (f c)) : Near input p (x >>= f) := by
  intro s b r s' hok
  cases hrun : x s with
  | error e s₁ =>
    rw [bind_error hrun] at hok
    cases hok
  | ok c s₁ =>
    rw [bind_ok hrun] at hok
    obtain ⟨hpr, hreach⟩ := hf c s₁ b r s' hok
    refine ⟨hpr, fun hr => ?_⟩
    have hfirst := hx s c s₁ hrun (hpr.trans hr)
    have hsecond := hreach hr
    omega

theorem Peeks.glances {x : Parser γ} {c : γ} (h : Peeks (max input.size p + 1) x c) :
    Glances input p x := by
  intro s c' s' hok hp
  obtain ⟨s₁, hrun, _, _, hreach⟩ := h.run s
  rw [hrun] at hok
  cases hok
  omega

theorem glances_checkExceedSize (i : ℕ) : Glances input p (checkExceedSize input i) := by
  intro s c s' hok _
  by_cases hi : input.size ≤ i
  · rw [checkExceedSize_of_le hi] at hok
    cases hok
    exact Nat.le_max_left ..
  · rw [checkExceedSize_of_lt (Nat.not_le.mp hi)] at hok
    cases hok
    exact Nat.le_max_left ..

theorem Near.record {g : ParseState → ParseState} {f : PUnit → Parser (α × ℕ)}
    (hreach : ∀ s, (g s).reach = s.reach) (hf : Near input p (f ⟨⟩)) :
    Near input p (modify g >>= f) := by
  intro s a q s' hok
  obtain ⟨hq, hnear⟩ := hf (g s) a q s' hok
  rw [hreach] at hnear
  exact ⟨hq, hnear⟩

/-- A scan moves the position on. -/
theorem Near.scan {stop : ℕ → Parser Bool} {f : ℕ → Bool} {k : ℕ × Bool → Parser (α × ℕ)}
    (hstop : ∀ i, i = p ∨ i < input.size → Peeks (max input.size p + 2) (stop i) (f i))
    (hnear : p ≤ input.size → ∀ i, i = p ∨ i < input.size →
      Peeks (input.size + 1) (stop i) (f i))
    (hk : ∀ q exceeded, p ≤ q → Near input q (k (q, exceeded))) :
    Near input p (scan input stop p >>= k) := by
  intro s a r s' hok
  obtain ⟨q, exceeded, s₁, hscan, _, _, hpq, _, _⟩ := scan_run input _ stop f p hstop s
  rw [bind_ok hscan] at hok
  obtain ⟨hqr, hreach⟩ := hk q exceeded hpq s₁ a r s' hok
  refine ⟨hpq.trans hqr, fun hr => ?_⟩
  obtain ⟨q', exceeded', s₂, hscan', _, hreach₂, _⟩ :=
    scan_run input _ stop f p (hnear (hpq.trans (hqr.trans hr))) s
  rw [hscan] at hscan'
  cases hscan'
  have hsecond := hreach hr
  omega

theorem Near.scanChar {stop : Char → Bool} {k : ℕ × Bool → Parser (α × ℕ)}
    (hk : ∀ q exceeded, p ≤ q → Near input q (k (q, exceeded))) :
    Near input p (scanChar input stop p >>= k) :=
  Near.scan (f := fun i => stop (input.byte i))
    (fun _ hi => (peeks_charAt (by omega)).map stop)
    (fun _ _ hi => (peeks_charAt (by omega)).map stop) hk

end Rules

section Scanners

theorem glances_getSubString (start stop : ℕ) :
    Glances input p (getSubString input start stop) := by
  intro s c s' hok _
  rcases getSubString_run input start stop s with ⟨_, text, hsub⟩ | hsub
  · rw [hsub] at hok
    cases hok
    exact Nat.le_max_left ..
  · rw [hsub] at hok
    cases hok

theorem near_parseValueString (p : ℕ) : Near input p (parseValueString input p) :=
  Near.scanChar fun q _ _ => Near.glance (glances_getSubString _ _) fun _ =>
    Near.pure (Nat.le_succ q)

theorem near_parseKey (p : ℕ) : Near input p (parseKey input p) := by
  refine Near.scanChar fun q _ _ => Near.glance (peeks_charAt (by omega)).glances fun c => ?_
  refine Near.ite (Near.pure (Nat.le_succ q)) ?_
  exact (near_parseValueString (q + 1)).weaken (Nat.le_succ q)

end Scanners

section Readers

theorem near_lastScan (res : Json δ) (p : ℕ) : Near input p (lastScan input (res, p)) :=
  Near.scanChar fun q _ _ => Near.pure (Nat.le_refl q)

variable [CharConv δ]

theorem near_parseValueNumber (p : ℕ) :
    Near input p (parseValueNumber input p : Parser (Json δ × ℕ)) := by
  unfold parseValueNumber
  refine Near.scan (f := fun i => !input.takesNumber i)
    (fun i hi => peeks_numberStop (by omega) fun _ => by omega) (fun hp i hi => ?_)
    fun q _ _ => Near.glance (glances_getSubString _ _) fun text => Near.ite ?_ ?_
  · refine peeks_numberStop (by omega) fun he => ?_
    have hlt : i < input.size := lt_size_of_byte_ne (by omega) (by rw [he]; decide)
    omega
  · cases CharConv.fromChars (δ := δ) text with
    | none => exact Near.pure (Nat.le_refl q)
    | some x => exact Near.pure (Nat.le_refl q)
  · cases int64FromChars text with
    | none => exact Near.pure (Nat.le_refl q)
    | some x => exact Near.pure (Nat.le_refl q)

section Values

variable {object array : ℕ → Parser (Json δ × ℕ)} {start startPos : ℕ}

theorem near_parseBranch (hobject : ∀ q, Near input q (object q))
    (harray : ∀ q, Near input q (array q)) (hp : p ≤ startPos) (hle : p ≤ start)
    (hstart : start = p ∨ start < input.size) :
    Near input p (parseBranch input object array start startPos) := by
  have hbehind : ∀ {x : Parser (Json δ × ℕ)}, Near input (start + 1) x → Near input p x :=
    fun h => h.weaken (by omega)
  unfold parseBranch
  refine Near.glance (peeks_charAt (by omega)).glances fun c => Near.ite ?_ (Near.ite ?_ ?_)
  · exact hbehind ((near_parseValueString _).bind fun text q _ => Near.pure (Nat.le_refl q))
  · exact (near_parseValueNumber start).weaken hle
  · refine Near.glance (peeks_isBoolean input start (by omega)).glances fun b => ?_
    cases b with
    | some b =>
      cases b with
      | true => exact Near.pure (by omega)
      | false => exact Near.pure (by omega)
    | none =>
      refine Near.glance (peeks_isNull input start (by omega)).glances fun _ =>
        Near.ite (Near.pure (by omega)) ?_
      exact Near.ite (hbehind (hobject _)) (Near.ite (hbehind (harray _)) (Near.pure hp))

theorem near_parseValueWith (hobject : ∀ q, Near input q (object q))
    (harray : ∀ q, Near input q (array q)) (p : ℕ) :
    Near input p (parseValueWith input object array p) := by
  intro s a r s' hok
  obtain ⟨q, s₁, _, hreach, hle, _, hend⟩ := parseValueWith_run (δ := δ) input p s
  rcases hend with ⟨_, hin, _, hrun⟩ | ⟨_, _, hrun⟩
  · have htail : Near input p (valueTail input object array (input.byte q) q p) := by
      intro s₁ a r s' hok
      have hmoved : p ≤ if input.byte q == '}' || input.byte q == ']' then q else p := by
        split
        · exact hle
        · exact Nat.le_refl p
      cases hv : s₁.isValid with
      | false =>
        rw [valueTail_invalid hv] at hok
        cases hok
        exact ⟨hmoved, fun _ => Nat.le_max_left ..⟩
      | true =>
        rw [valueTail_valid hv] at hok
        have hbranch := near_parseBranch hobject harray hmoved hle hin
        exact (hbranch.bind fun res pos _ => near_lastScan res pos) s₁ a r s' hok
    rw [hrun] at hok
    obtain ⟨hpr, hnear⟩ := htail s₁ a r s' hok
    refine ⟨hpr, fun hr => ?_⟩
    have hfirst := hreach (hpr.trans hr)
    have hsecond := hnear hr
    omega
  · rw [hrun] at hok
    cases hok
    exact ⟨Nat.le_refl p, hreach⟩

end Values

theorem near_readers (input : Input) (fuel : ℕ) :
    (∀ (res : Json δ) (p : ℕ), Near input p (parseObject input fuel res p)) ∧
    (∀ (res : Json δ) (index p : ℕ), Near input p (parseArray input fuel res index p)) ∧
    ∀ p : ℕ, Near input p (parseValue input fuel p : Parser (Json δ × ℕ)) := by
  induction fuel with
  | zero =>
    refine ⟨fun res p => ?_, fun res index p => ?_, fun p => ?_⟩
    · rw [parseObject]
      exact Near.throw _
    · rw [parseArray]
      exact Near.throw _
    · rw [parseValue]
      exact Near.throw _
  | succ fuel ih =>
    obtain ⟨ihObject, ihArray, ihValue⟩ := ih
    refine ⟨fun res p => ?_, fun res index p => ?_, fun p => ?_⟩
    · rw [parseObject]
      refine Near.glance (peeks_charAt (by omega)).glances fun _ =>
        Near.ite (Near.pure (Nat.le_succ p)) ?_
      refine (near_parseKey p).bind fun key pos _ => (ihValue pos).bind fun value q _ => ?_
      refine Near.glance (glances_checkExceedSize q) fun _ =>
        Near.ite (Near.pure (Nat.le_succ q)) ?_
      exact Near.record (fun _ => rfl) (ihObject _ q)
    · rw [parseArray]
      refine Near.glance (peeks_charAt (by omega)).glances fun _ =>
        Near.ite (Near.pure (Nat.le_succ p)) ?_
      refine Near.record (fun _ => rfl) ((ihValue p).bind fun value q _ => ?_)
      refine Near.glance (glances_checkExceedSize q) fun _ =>
        Near.ite (Near.pure (Nat.le_succ q)) ?_
      exact Near.record (fun _ => rfl) (ihArray _ _ q)
    · rw [parseValue]
      exact near_parseValueWith (ihObject _) (ihArray _ _) p

/-- Where a value ends in the text, nothing behind the NUL was read. -/
theorem valueEnds_of_parseValue {fuel : ℕ} {v : Json δ} {s' : ParseState} (hp : p ≤ input.size)
    (hs : s.reach ≤ input.size + 1) (hvalid : s.isValid = true)
    (hok : parseValue input fuel p s = .ok (v, q) s') (hq : q < input.size) :
    p ≤ q ∧ s'.reach ≤ input.size + 1 ∧ ValueEnds input p q := by
  obtain ⟨hle, hreach⟩ := (near_readers input fuel).2.2 p s v q s' hok
  have hnear : s'.reach ≤ input.size + 1 := by
    have hmax := hreach hq.le
    omega
  have hends : ∀ t, (parseValue input fuel p s : EStateM.Result _ _ (Json δ × ℕ)) ≠
      .error .outOfFuel t := by
    intro t hout
    rw [hok] at hout
    cases hout
  rcases (readers_agree input fuel).2.2 p s hp hs hvalid hends with
    ⟨v', q', s₁, hok', _, hiff⟩ | ⟨hnot, _⟩
  · rw [hok] at hok'
    cases hok'
    exact ⟨hle, hnear, (hiff q).mpr rfl⟩
  · exact absurd ⟨_, s', hok, hnear⟩ hnot

end Readers

section Containers

theorem notKeyword_of_byte {start : ℕ}
    (hbyte : input.byte start = '{' ∨ input.byte start = '[') :
    input.booleanAt start = none ∧ input.nullAt start = false := by
  have hnone := keywordAt_of_byte hbyte
  unfold keywordAt at hnone
  cases hb : input.booleanAt start with
  | some b =>
    rw [hb] at hnone
    cases b <;> cases hnone
  | none =>
    rw [hb] at hnone
    cases hn : input.nullAt start with
    | true =>
      rw [hn] at hnone
      cases hnone
    | false => exact ⟨rfl, rfl⟩

variable [CharConv δ] {start : ℕ}

/-- At the bracket of a container its reader goes on behind the bracket. -/
theorem parseBranch_opens (hbyte : input.byte start = '{' ∨ input.byte start = '[')
    (s : ParseState) : ∃ s', s'.isValid = s.isValid ∧
      s'.reach ≤ max s.reach (max input.size start + 1) ∧
      ∀ object array : ℕ → Parser (Json δ × ℕ), parseBranch input object array start p s =
        (if input.byte start == '{' then object (start + 1) else array (start + 1)) s' := by
  have hchar : (input.byte start == '"') = false ∧ isNumber (input.byte start) = false := by
    rcases hbyte with hbyte | hbyte
    all_goals
      rw [hbyte]
      decide
  obtain ⟨s₁, hread, _, hvalid₁, hreach₁⟩ :=
    (peeks_charAt (Nat.lt_succ_self start)).run (x := charAt input start) s
  obtain ⟨s₂, hboolean, _, hvalid₂, hreach₂⟩ :=
    (peeks_isBoolean input start (Nat.le_refl _)).run s₁
  obtain ⟨s₃, hnull, _, hvalid₃, hreach₃⟩ :=
    (peeks_isNull input start (Nat.le_refl _)).run s₂
  obtain ⟨hnotBoolean, hnotNull⟩ := notKeyword_of_byte hbyte
  rw [hnotBoolean] at hboolean
  rw [hnotNull] at hnull
  refine ⟨s₃, hvalid₃.trans (hvalid₂.trans hvalid₁), by omega, fun object array => ?_⟩
  rw [parseBranch, bind_ok hread]
  simp only [hchar, Bool.false_eq_true, if_false]
  rw [bind_ok hboolean]
  simp only
  rw [bind_ok hnull]
  simp only [Bool.false_eq_true, if_false]
  rcases hbyte with hbyte | hbyte
  · rw [hbyte]
    rfl
  · rw [hbyte]
    rfl

/-- The scan for a value that comes to a container hands over to its reader. -/
theorem parseValueWith_opens (hp : p ≤ input.size) (hvalid : s.isValid = true)
    (hs : s.reach ≤ input.size + 1) (hat : ValueAt input p start)
    (hbyte : input.byte start = '{' ∨ input.byte start = '[') :
    ∃ s', s'.isValid = true ∧ s'.reach ≤ input.size + 1 ∧
      ∀ object array : ℕ → Parser (Json δ × ℕ), parseValueWith input object array p s =
        ((if input.byte start == '{' then object (start + 1) else array (start + 1)) >>=
          lastScan input) s' := by
  obtain ⟨q, s₁, _, hreach, hle, hpassed, hend⟩ := parseValueWith_run (δ := δ) input p s
  have hnear := hreach hp
  rcases hend with ⟨hmet, hin, hvalid₁, hrun⟩ | ⟨hsize, _, _⟩
  · obtain rfl := hat.2.unique ⟨hle, hmet, hpassed⟩
    have hopen : input.closes start = false := by
      unfold Input.closes
      rcases hbyte with hbyte | hbyte
      all_goals
        rw [hbyte]
        decide
    have hlt := hat.1
    obtain ⟨s₂, hvalid₂, hreach₂, hbranch⟩ := parseBranch_opens (δ := δ) (p := p) hbyte s₁
    refine ⟨s₂, (hvalid₂.trans hvalid₁).trans hvalid, by omega, fun object array => ?_⟩
    rw [hrun, valueTail_valid (hvalid₁.trans hvalid), stays_of_not_closes p hopen]
    exact bind_run_congr (hbranch object array)
  · have hfree := hpassed start hat.2.1 (Nat.lt_of_lt_of_le hat.1 hsize)
    have hmet : (input.startsValue start || input.closes start) = true := hat.2.2.1
    rw [hmet] at hfree
    cases hfree

end Containers

section Endless

variable [CharConv δ]

variable (δ) in
/-- With this fuel the rest of an object with a stuck position is not read to its end. -/
def ObjectEndless (input : Input) (fuel : ℕ) : Prop :=
  ∀ (res : Json δ) (p : ℕ) (s : ParseState), p ≤ input.size → s.reach ≤ input.size + 1 →
    (s.isValid = true ∨ Blocked input p) → ObjectSticks input p →
    ∃ s', parseObject input fuel res p s = .error .outOfFuel s'

variable (δ) in
def ArrayEndless (input : Input) (fuel : ℕ) : Prop :=
  ∀ (res : Json δ) (index p : ℕ) (s : ParseState), p ≤ input.size → s.reach ≤ input.size + 1 →
    (s.isValid = true ∨ Blocked input p) → ArraySticks input p →
    ∃ s', parseArray input fuel res index p s = .error .outOfFuel s'

variable (δ) in
def ValueEndless (input : Input) (fuel : ℕ) : Prop :=
  ∀ (p : ℕ) (s : ParseState), p ≤ input.size → s.reach ≤ input.size + 1 → s.isValid = true →
    ValueSticks input p →
    ∃ s', (parseValue input fuel p s : EStateM.Result _ _ (Json δ × ℕ)) = .error .outOfFuel s'

/-- A turn runs out of fuel where the rest does, behind a value that ends or runs out as well. -/
theorem turnResult_endless {fuel start : ℕ} {store : Json δ → Json δ}
    {next : Json δ → ℕ → ParseState → EStateM.Result Abort ParseState (Json δ × ℕ)}
    (hp : p ≤ input.size) (hs : s.reach ≤ input.size + 1) (hvalid : s.isValid = true)
    (hvalue : ValueEnds input p q) (hq : q < input.size)
    (hnext : ∀ res s', s'.reach ≤ input.size + 1 → (s'.isValid = true ∨ Blocked input q) →
      ∃ s'', next res q s' = .error .outOfFuel s'') :
    ∃ s', turnResult input start store next (parseValue input fuel p s) = .error .outOfFuel s' := by
  by_cases hout : ∃ s', (parseValue input fuel p s : EStateM.Result _ _ (Json δ × ℕ)) =
      .error .outOfFuel s'
  · obtain ⟨s', hrun⟩ := hout
    exact ⟨s', by rw [hrun, turnResult]⟩
  · rcases (readers_agree input fuel).2.2 p s hp hs hvalid (not_exists.mp hout) with
      ⟨v, q', s₁, hok, hreach, hiff⟩ | ⟨_, hnone⟩
    · obtain rfl := (hiff q).mp hvalue
      rw [hok, turnResult, if_neg (Nat.not_le.mpr hq)]
      have hplaced := valid_or_blocked_of_parseValue hp hvalid hok hq
      exact hnext _ _ hreach hplaced
    · exact absurd hvalue (hnone q)

/-- A turn of an object whose key ends in the text comes to its value. -/
theorem parseObject_keyEnds (hp : p ≤ input.size) (hs : s.reach ≤ input.size + 1)
    (hvalid : s.isValid = true ∨ Blocked input p) (hbyte : input.byte p ≠ '}')
    (hkey : KeyEnds input p pos) (res : Json δ) (fuel : ℕ) : ∃ key s₂,
      pos ≤ input.size ∧ s₂.reach ≤ input.size + 1 ∧ s₂.isValid = true ∧
      parseObject input (fuel + 1) res p s =
        turnResult input p (fun value => res.setKey key value)
          (fun res q s => parseObject input fuel res q s) (parseValue input fuel pos s₂) := by
  obtain ⟨s₁, _, hvalid₁, hreach₁, _, hgoes⟩ := parseObject_open hbyte res s
  rcases parseKey_bounds (s := s₁) hp (by omega) with
    ⟨key, pos', s₂, hok, hkey', hvalid₂, hreach₂⟩ | ⟨hnone, _⟩
  · obtain rfl := hkey.unique hkey'
    refine ⟨key, s₂, hkey.le, hreach₂, ?_, hgoes key pos s₂ hok fuel⟩
    -- The key is there, so the reader is not blocked.
    rw [hvalid₂, hvalid₁]
    exact hvalid.resolve_right fun hblocked => not_keyEnds_of_blocked hblocked hkey
  · exact absurd hkey (hnone pos)

theorem objectEndless_succ {fuel : ℕ} (hobject : ObjectEndless δ input fuel)
    (hvalue : ValueEndless δ input fuel) : ObjectEndless δ input (fuel + 1) := by
  intro res p s hp hs hvalid h
  cases h with
  | value hbyte hkey hsticks =>
    obtain ⟨key, s₂, hpos, hreach, hv, hrun⟩ := parseObject_keyEnds hp hs hvalid hbyte hkey res fuel
    obtain ⟨s', hout⟩ := hvalue _ s₂ hpos hreach hv hsticks
    exact ⟨s', by rw [hrun, hout, turnResult]⟩
  | turn hbyte hkey hends hq hrest =>
    obtain ⟨key, s₂, hpos, hreach, hv, hrun⟩ := parseObject_keyEnds hp hs hvalid hbyte hkey res fuel
    rw [hrun]
    exact turnResult_endless hpos hreach hv hends hq fun res s' hreach' hv' =>
      hobject res _ s' hq.le hreach' hv' hrest

theorem arrayEndless_succ {fuel : ℕ} (harray : ArrayEndless δ input fuel)
    (hvalue : ValueEndless δ input fuel) : ArrayEndless δ input (fuel + 1) := by
  intro res index p s hp hs hvalid h
  -- A blocked turn is stuck, and any other one comes to its value.
  by_cases hstuck : Stuck input p
  · exact parseArray_stuck (fuel + 1) res index hstuck s
  have hopened : input.byte p ≠ ']' → ∃ s₁, s₁.reach ≤ input.size + 1 ∧ s₁.isValid = true ∧
      parseArray input (fuel + 1) res index p s =
        turnResult input p (fun value => res.setIndex index value)
          (fun res q s => parseArray input fuel res (index + 1) q s)
          (parseValue input fuel p s₁) := by
    intro hbyte
    obtain ⟨s₁, _, _, hvalid₁, hreach₁, hrun⟩ := parseArray_turn hbyte res index s
    have hv := hvalid.resolve_right fun hblocked => hstuck ⟨hblocked.1, hbyte, Or.inl hblocked⟩
    exact ⟨s₁, by omega, hvalid₁.trans hv, hrun fuel⟩
  cases h with
  | here hhere => exact absurd hhere hstuck
  | value hbyte hsticks =>
    obtain ⟨s₁, hreach, hv, hrun⟩ := hopened hbyte
    obtain ⟨s', hout⟩ := hvalue p s₁ hp hreach hv hsticks
    exact ⟨s', by rw [hrun, hout, turnResult]⟩
  | turn hbyte hends hq hrest =>
    obtain ⟨s₁, hreach, hv, hrun⟩ := hopened hbyte
    rw [hrun]
    exact turnResult_endless hp hreach hv hends hq fun res s' hreach' hv' =>
      harray res (index + 1) _ s' hq.le hreach' hv' hrest

theorem valueEndless_succ {fuel : ℕ} (hobject : ObjectEndless δ input fuel)
    (harray : ArrayEndless δ input fuel) : ValueEndless δ input (fuel + 1) := by
  intro p s hp hs hvalid h
  rw [parseValue_succ]
  cases h with
  | object hat hbyte hsticks =>
    obtain ⟨s₁, hv, hreach, hrun⟩ := parseValueWith_opens (δ := δ) hp hvalid hs hat (Or.inl hbyte)
    obtain ⟨s', hout⟩ := hobject .null _ s₁ hat.1 hreach (Or.inl hv) hsticks
    rw [hbyte] at hrun
    exact ⟨s', (hrun _ _).trans (bind_error hout)⟩
  | array hat hbyte hsticks =>
    obtain ⟨s₁, hv, hreach, hrun⟩ := parseValueWith_opens (δ := δ) hp hvalid hs hat (Or.inr hbyte)
    obtain ⟨s', hout⟩ := harray .null 0 _ s₁ hat.1 hreach (Or.inl hv) hsticks
    rw [hbyte] at hrun
    exact ⟨s', (hrun _ _).trans (bind_error hout)⟩

/-- A reader that comes to a stuck position runs out of any fuel. -/
theorem readers_endless (δ : Type) [CharConv δ] (input : Input) (fuel : ℕ) :
    ObjectEndless δ input fuel ∧ ArrayEndless δ input fuel ∧ ValueEndless δ input fuel := by
  induction fuel with
  | zero =>
    exact ⟨fun res p s _ _ _ _ => ⟨s, parseObject_zero res s⟩,
      fun res index p s _ _ _ _ => ⟨s, parseArray_zero res index s⟩,
      fun p s _ _ _ _ => ⟨s, parseValue_zero s⟩⟩
  | succ fuel ih =>
    obtain ⟨ihObject, ihArray, ihValue⟩ := ih
    exact ⟨objectEndless_succ ihObject ihValue, arrayEndless_succ ihArray ihValue,
      valueEndless_succ ihObject ihArray⟩

end Endless

section Endings

/-- The run does not run out of fuel. -/
def Finishes (r : EStateM.Result Abort ParseState α) : Prop := ∀ s, r ≠ .error .outOfFuel s

theorem finishes_ok {a : α} : Finishes (.ok a s) := fun _ heq => by cases heq

theorem finishes_outOfRange : Finishes (.error .outOfRange s : EStateM.Result _ _ α) :=
  fun _ heq => by cases heq

theorem Finishes.lastScan {x : Parser (Json δ × ℕ)} (h : Finishes (x s)) :
    Finishes ((x >>= lastScan input) s) := by
  cases hrun : x s with
  | error e s₁ =>
    rw [hrun] at h
    rw [bind_error hrun]
    intro s₂ heq
    cases heq
    exact h s₁ rfl
  | ok v s₁ =>
    obtain ⟨res, pos⟩ := v
    obtain ⟨q, exceeded, s₂, hscan, _⟩ :=
      scanChar_run input (fun c => c == ',' || c == '}' || c == ']') pos s₁
    rw [bind_ok hrun, JsonParse.lastScan, bind_ok hscan]
    exact finishes_ok

theorem turnResult_finishes {store : Json δ → Json δ}
    {next : Json δ → ℕ → ParseState → EStateM.Result Abort ParseState (Json δ × ℕ)}
    {value : EStateM.Result Abort ParseState (Json δ × ℕ)} (hvalue : Finishes value)
    (hnext : ∀ v q s, value = .ok (v, q) s → q < input.size →
      Finishes (next (store v) q { s with turns := (p, q) :: s.turns })) :
    Finishes (turnResult input p store next value) := by
  cases hrun : value with
  | error e s =>
    rw [hrun] at hvalue
    intro s' heq
    cases heq
    exact hvalue s rfl
  | ok v s =>
    obtain ⟨v, q⟩ := v
    by_cases hsize : input.size ≤ q
    · rw [turnResult, if_pos hsize]
      exact finishes_ok
    · rw [turnResult, if_neg hsize]
      exact hnext v q s hrun (Nat.not_le.mp hsize)

variable [CharConv δ]

/-- Behind the text no value is read. -/
theorem parseValue_behind (hsize : input.size ≤ p) (hvalid : s.isValid = false) (fuel : ℕ) :
    Finishes (parseValue input (fuel + 1) p s : EStateM.Result _ _ (Json δ × ℕ)) := by
  have hplaced : Placed input p s := by
    refine ⟨fun hv => ?_, fun _ => Or.inl hsize⟩
    rw [hvalid] at hv
    cases hv
  rw [parseValue_succ]
  rcases parseValueWith_cases (δ := δ) hplaced with ⟨r, hrun, hleaf⟩ | ⟨start, s₁, hopens, _⟩
  · rw [hrun]
    rcases hleaf with ⟨s', rfl, _⟩ | ⟨res, q, s', rfl, _⟩
    · exact finishes_outOfRange
    · exact finishes_ok
  · have hlt := hopens.lt
    have hle := hopens.le
    omega

variable (δ) in
/-- This fuel is enough for the rest of an object without a stuck position. -/
def ObjectFinishes (input : Input) (fuel : ℕ) : Prop :=
  ∀ (res : Json δ) (p : ℕ) (s : ParseState), p ≤ input.size → s.reach ≤ input.size + 1 →
    (s.isValid = true ∨ Blocked input p) → ¬ ObjectSticks input p →
    2 * (input.size - p) + 2 ≤ fuel → Finishes (parseObject input fuel res p s)

variable (δ) in
def ArrayFinishes (input : Input) (fuel : ℕ) : Prop :=
  ∀ (res : Json δ) (index p : ℕ) (s : ParseState), p ≤ input.size → s.reach ≤ input.size + 1 →
    (s.isValid = true ∨ Blocked input p) → ¬ ArraySticks input p →
    2 * (input.size - p) + 2 ≤ fuel → Finishes (parseArray input fuel res index p s)

variable (δ) in
def ValueFinishes (input : Input) (fuel : ℕ) : Prop :=
  ∀ (p : ℕ) (s : ParseState), p ≤ input.size → s.reach ≤ input.size + 1 → s.isValid = true →
    ¬ ValueSticks input p → 2 * (input.size - p) + 1 ≤ fuel →
    Finishes (parseValue input fuel p s : EStateM.Result _ _ (Json δ × ℕ))

/-- A key that does not end in the text is one behind which nothing is read. -/
theorem behind_of_parseKey {key : Text} {s₁ s₂ : ParseState}
    (hfar : ∀ key pos s', parseKey input p s₁ = .ok (key, pos) s' →
      input.size < pos ∨ input.size + 1 < s'.reach)
    (hs : s₁.reach ≤ input.size + 1) (hkey : parseKey input p s₁ = .ok (key, pos) s₂) :
    input.size < pos := by
  have hnear := (near_parseKey p s₁ key pos s₂ hkey).2
  rcases hfar key pos s₂ hkey with hlt | hlt
  · exact hlt
  · by_contra hle
    have hreach := hnear (Nat.not_lt.mp hle)
    omega

theorem objectFinishes_succ {fuel : ℕ} (hobject : ObjectFinishes δ input fuel)
    (hvalue : ValueFinishes δ input fuel) : ObjectFinishes δ input (fuel + 1) := by
  intro res p s hp hs hvalid hfree hfuel
  by_cases hbyte : input.byte p = '}'
  · obtain ⟨s', _, _, _, hok⟩ := parseObject_close hbyte res s
    rw [hok]
    exact finishes_ok
  obtain ⟨s₁, _, hvalid₁, hreach₁, hfails, hgoes⟩ := parseObject_open hbyte res s
  obtain ⟨hlands, _⟩ := parseKey_lands input hp s₁
  rcases hlands with ⟨s₂, hkey, _⟩ | ⟨key, pos, s₂, hkey, _, hpos, hend⟩
  · rw [hfails _ s₂ hkey]
    exact finishes_outOfRange
  rw [hgoes key pos s₂ hkey]
  rcases parseKey_bounds (s := s₁) hp (by omega) with
    ⟨key', pos', s₂', hok, hends, hvalid₂, hreach₂⟩ | ⟨_, hfar⟩
  · rw [hkey] at hok
    cases hok
    have hv : s₂.isValid = true := by
      rw [hvalid₂, hvalid₁]
      exact hvalid.resolve_right fun hblocked => not_keyEnds_of_blocked hblocked hends
    have hfinishes := hvalue pos s₂ hends.le hreach₂ hv (fun h => hfree (.value hbyte hends h))
      (by omega)
    refine turnResult_finishes hfinishes fun v q s₃ hok₃ hq => ?_
    obtain ⟨hposq, hreach₃, hvalueEnds⟩ := valueEnds_of_parseValue hends.le hreach₂ hv hok₃ hq
    have hplaced := valid_or_blocked_of_parseValue hends.le hv hok₃ hq
    exact hobject _ q _ hq.le hreach₃ hplaced
      (fun h => hfree (.turn hbyte hends hvalueEnds hq h)) (by omega)
  · -- The key is not in the text, and neither is what follows it.
    have hbehind := behind_of_parseKey hfar (by omega) hkey
    have hv : s₂.isValid = false := by
      rcases hend with ⟨_, hin⟩ | ⟨hinvalid, _⟩
      · omega
      · exact hinvalid
    obtain ⟨more, rfl⟩ : ∃ more, fuel = more + 1 := ⟨fuel - 1, by omega⟩
    refine turnResult_finishes (parseValue_behind hbehind.le hv more) fun v q s₃ hok₃ hq => ?_
    have hle := ((near_readers input (more + 1)).2.2 pos s₂ v q s₃ hok₃).1
    omega

/-- A turn of an array that is not stuck has moved on behind its value. -/
theorem lt_of_parseValue {fuel : ℕ} {v : Json δ} {s' : ParseState} (hp : p ≤ input.size)
    (hvalid : s.isValid = true) (hbyte : input.byte p ≠ ']') (hfree : ¬ Stuck input p)
    (hok : parseValue input fuel p s = .ok (v, q) s') (hq : q < input.size) (hle : p ≤ q) :
    p < q := by
  have hplaced : Placed input p s := by
    refine ⟨fun _ => hp, fun hinvalid => ?_⟩
    rw [hvalid] at hinvalid
    cases hinvalid
  have hsound := (readers_sound (δ := δ) input fuel).2.2 (p + 1) p s hplaced
    (Or.inr ⟨Nat.le_refl _, by omega, hbyte, hfree⟩)
  exact (hsound.lands v q s' hok).1

theorem arrayFinishes_succ {fuel : ℕ} (harray : ArrayFinishes δ input fuel)
    (hvalue : ValueFinishes δ input fuel) : ArrayFinishes δ input (fuel + 1) := by
  intro res index p s hp hs hvalid hfree hfuel
  by_cases hbyte : input.byte p = ']'
  · obtain ⟨s', _, _, _, hok⟩ := parseArray_close hbyte res index s
    rw [hok]
    exact finishes_ok
  have hunblocked : ¬ Blocked input p :=
    fun hblocked => hfree (.here ⟨hblocked.1, hbyte, Or.inl hblocked⟩)
  obtain ⟨s₁, _, _, hvalid₁, hreach₁, hrun⟩ := parseArray_turn hbyte res index s
  have hv : s₁.isValid = true := hvalid₁.trans (hvalid.resolve_right hunblocked)
  have hnear : s₁.reach ≤ input.size + 1 := by omega
  have hfinishes := hvalue p s₁ hp hnear hv (fun h => hfree (.value hbyte h)) (by omega)
  rw [hrun]
  refine turnResult_finishes hfinishes fun v q s₂ hok hq => ?_
  obtain ⟨hpq, hreach₂, hvalueEnds⟩ := valueEnds_of_parseValue hp hnear hv hok hq
  have hplaced := valid_or_blocked_of_parseValue hp hv hok hq
  have hmoved := lt_of_parseValue hp hv hbyte (fun hstuck => hfree (.here hstuck)) hok hq hpq
  exact harray _ (index + 1) q _ hq.le hreach₂ hplaced
    (fun h => hfree (.turn hbyte hvalueEnds hq h)) (by omega)

theorem valueFinishes_succ {fuel : ℕ} (hobject : ObjectFinishes δ input fuel)
    (harray : ArrayFinishes δ input fuel) : ValueFinishes δ input (fuel + 1) := by
  intro p s hp hs hvalid hfree hfuel
  have hplaced : Placed input p s := by
    refine ⟨fun _ => hp, fun hv => ?_⟩
    rw [hvalid] at hv
    cases hv
  rw [parseValue_succ]
  rcases parseValueWith_cases (δ := δ) hplaced with ⟨r, hrun, hleaf⟩ | ⟨start, s₁, hopens, hrun⟩
  · rw [hrun]
    rcases hleaf with ⟨s', rfl, _⟩ | ⟨res, q, s', rfl, _⟩
    · exact finishes_outOfRange
    · exact finishes_ok
  · obtain ⟨_, hvalid₁, hle, hlt, hstarts, hpassed, hreach⟩ := hopens
    have hnear := hreach hp
    have hmet : (input.startsValue start || input.closes start) = true := by
      rw [hstarts, Bool.true_or]
    have hat : ValueAt input p start := ⟨hlt, hle, hmet, hpassed⟩
    rcases hrun with ⟨hbyte, hrun⟩ | ⟨hbyte, hrun⟩
    · rw [hrun]
      exact (hobject .null _ s₁ hlt (by omega) (Or.inl hvalid₁)
        (fun h => hfree (.object hat hbyte h)) (by omega)).lastScan
    · rw [hrun]
      exact (harray .null 0 _ s₁ hlt (by omega) (Or.inl hvalid₁)
        (fun h => hfree (.array hat hbyte h)) (by omega)).lastScan

/-- Two units of fuel for each position are enough unless the reader comes to a stuck one. -/
theorem readers_finish (δ : Type) [CharConv δ] (input : Input) (fuel : ℕ) :
    ObjectFinishes δ input fuel ∧ ArrayFinishes δ input fuel ∧ ValueFinishes δ input fuel := by
  induction fuel with
  | zero =>
    exact ⟨fun res p s _ _ _ _ hfuel => absurd hfuel (by omega),
      fun res index p s _ _ _ _ hfuel => absurd hfuel (by omega),
      fun p s _ _ _ _ hfuel => absurd hfuel (by omega)⟩
  | succ fuel ih =>
    obtain ⟨ihObject, ihArray, ihValue⟩ := ih
    exact ⟨objectFinishes_succ ihObject ihValue, arrayFinishes_succ ihArray ihValue,
      valueFinishes_succ ihObject ihArray⟩

/-- The outermost container is read to its end exactly if no array loop in it is stuck. -/
theorem finishes_parse_iff (hsize : input.size ≠ 0) :
    (∃ fuel, Finishes (parse input fuel initial : EStateM.Result _ _ (Json δ))) ↔
      ¬ Sticks input := by
  have hparse : ∀ fuel, Finishes (parse input fuel initial : EStateM.Result _ _ (Json δ)) ↔
      Finishes ((outermost input fuel : Parser (Json δ × ℕ)) initial) := by
    intro fuel
    rw [parse_eq hsize]
    have hfails := (finalState_finish (outermost input fuel : Parser (Json δ × ℕ)) initial).2
    exact forall_congr' fun s => not_congr (hfails .outOfFuel s)
  simp only [hparse]
  rcases outermost_run (δ := δ) hsize with
    ⟨start, s, hstart, hfirst, hvalid, hreach, houter⟩ | ⟨hnone, s, hvalid, houter⟩
  · simp only [houter]
    have hmet : (input.byte start == '{' || input.byte start == '[') = true := hfirst.2.1
    rw [Bool.or_eq_true, beq_iff_eq, beq_iff_eq] at hmet
    constructor
    · intro hends hsticks
      obtain ⟨fuel, hends⟩ := hends
      obtain ⟨start', _, hfirst', hcontainer⟩ := hsticks
      obtain rfl := hfirst.unique hfirst'
      obtain ⟨hobject, harray, _⟩ := readers_endless δ input fuel
      rcases hcontainer with ⟨hbyte, hsticks⟩ | ⟨hbyte, hsticks⟩
      · obtain ⟨s', hout⟩ := hobject .null _ s hstart hreach (Or.inl hvalid) hsticks
        rw [hbyte] at hends
        exact hends s' hout
      · obtain ⟨s', hout⟩ := harray .null 0 _ s hstart hreach (Or.inl hvalid) hsticks
        rw [hbyte] at hends
        exact hends s' hout
    · intro hfree
      obtain ⟨hobject, harray, _⟩ := readers_finish δ input (2 * input.size + 2)
      refine ⟨2 * input.size + 2, ?_⟩
      rcases hmet with hbyte | hbyte
      · rw [hbyte]
        exact hobject .null _ s hstart hreach (Or.inl hvalid)
          (fun h => hfree ⟨start, hstart, hfirst, Or.inl ⟨hbyte, h⟩⟩) (by omega)
      · rw [hbyte]
        exact harray .null 0 _ s hstart hreach (Or.inl hvalid)
          (fun h => hfree ⟨start, hstart, hfirst, Or.inr ⟨hbyte, h⟩⟩) (by omega)
  · -- Without an opening bracket the array loop begins behind the text.
    simp only [houter]
    refine iff_of_true ⟨2, ?_⟩ fun hsticks => ?_
    · by_cases hbyte : input.byte (input.size + 1) = ']'
      · obtain ⟨s', _, _, _, hok⟩ := parseArray_close hbyte (.null : Json δ) 0 s
        rw [hok]
        exact finishes_ok
      · obtain ⟨s₁, _, _, hvalid₁, _, hrun⟩ := parseArray_turn hbyte (.null : Json δ) 0 s
        rw [hrun]
        refine turnResult_finishes
          (parseValue_behind (Nat.le_succ _) (hvalid₁.trans hvalid) 0) fun v q s₂ hok hq => ?_
        have hle := ((near_readers input 1).2.2 _ s₁ v q s₂ hok).1
        omega
    · obtain ⟨start, hstart, hfirst, _⟩ := hsticks
      have hmet : (input.byte start == '{' || input.byte start == '[') = true := hfirst.2.1
      rw [hnone start hstart] at hmet
      cases hmet

/-- The reader comes to an end exactly where no array loop of the text comes to a position from
which the scan for a value meets a closing brace or the end of the text. -/
theorem parsesFinitely_iff : ParsesFinitely δ input ↔ ¬ Sticks input := by
  by_cases hsize : input.size = 0
  · refine iff_of_true (parsesFinitely_of_finishes ⟨0, fun s heq => ?_⟩) fun hsticks => ?_
    · rw [parse, if_pos hsize] at heq
      cases heq
    · obtain ⟨start, hstart, _⟩ := hsticks
      omega
  · rw [← finishes_parse_iff (δ := δ) hsize]
    exact ⟨fun h => h.finishes, parsesFinitely_of_finishes⟩

theorem not_parsesFinitely_arrayBrace :
    ¬ ParsesFinitely Empty ⟨['[', '}'], fun _ => '\x00'⟩ := by
  intro h
  obtain ⟨fuel, hends⟩ := h.finishes
  have hstuck : Stuck ⟨['[', '}'], fun _ => '\x00'⟩ 1 :=
    ⟨by decide, by decide, Or.inr ⟨1, Nat.le_refl 1, by decide, rfl, fun j hj hlt => by omega⟩⟩
  obtain ⟨s', hout⟩ := parseArray_stuck (δ := Empty) fuel .null 0 hstuck ⟨true, 1, [], []⟩
  have hrun : (parse ⟨['[', '}'], fun _ => '\x00'⟩ fuel initial : EStateM.Result _ _ (Json Empty)) =
      (parseArray ⟨['[', '}'], fun _ => '\x00'⟩ fuel .null 0 1 >>= finish) ⟨true, 1, [], []⟩ := rfl
  exact hends s' (hrun.trans (bind_error hout))

end Endings

end OrderBookServer.JsonParse
