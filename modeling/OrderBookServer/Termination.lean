import OrderBookServer.JsonSteps

/-!
When the reader comes to an end. A turn of the object loop always moves on, since it
passes a key. A turn of the array loop does not where the scan for a value meets a
closing brace or the end of the text first; then the loop never ends. Without such a
turn twice the length of the text bounds the nested turns.
-/
namespace OrderBookServer.JsonParse

variable {δ α β : Type} {input : Input} {p q : ℕ} {s s' : ParseState}

def finalState : EStateM.Result Abort ParseState α → ParseState
  | .ok _ s => s
  | .error _ s => s

section Endless

variable [CharConv δ]

/-- From a stuck position a value is read without getting away. -/
theorem parseValueWith_stuck (object array : ℕ → Parser (Json δ × ℕ)) (hstuck : Stuck input p)
    (s : ParseState) : ∃ q s', parseValueWith input object array p s = .ok (.null, q) s' ∧
      Stuck input q := by
  obtain ⟨q, s₁, _, _, hle, hpassed, hend⟩ := parseValueWith_run (δ := δ) input p s
  rcases hend with ⟨hmet, hin, _, hrun⟩ | ⟨_, _, hrun⟩
  · obtain ⟨hp, _, hblocked | ⟨brace, hpb, hlt, hbyte, hbefore⟩⟩ := hstuck
    · have hfree := hblocked.2 q hle (by omega)
      rw [hmet] at hfree
      cases hfree
    · have hclose : input.closes brace = true := by simp [Input.closes, hbyte]
      have heq : q = brace := by
        by_contra hne
        rcases Nat.lt_or_gt_of_ne hne with hbelow | habove
        · have hfree := hbefore q hle hbelow
          rw [hmet] at hfree
          cases hfree
        · have hfree := hpassed brace hpb habove
          rw [hclose, Bool.or_true] at hfree
          cases hfree
      obtain ⟨s₂, _, _, _, hok⟩ :=
        valueTail_closes (δ := δ) p (show input.closes q = true by rwa [heq]) s₁
      refine ⟨q, s₂, (hrun object array).trans (hok object array), by omega, ?_,
        Or.inr ⟨q, Nat.le_refl q, by omega, ?_, ?_⟩⟩
      · rw [heq, hbyte]
        decide
      · rw [heq, hbyte]
      · intro j hj hjq
        omega
  · exact ⟨p, s₁, hrun object array, hstuck⟩

/-- Once an array loop stands at a stuck position it never ends. -/
theorem parseArray_stuck (fuel : ℕ) (res : Json δ) (index : ℕ) (hstuck : Stuck input p)
    (s : ParseState) : ∃ s', parseArray input fuel res index p s = .error .outOfFuel s' := by
  induction fuel generalizing res index p s with
  | zero => exact ⟨s, parseArray_zero res index s⟩
  | succ fuel ih =>
    obtain ⟨s₁, _, _, _, _, hrun⟩ := parseArray_turn hstuck.2.1 res index s
    rw [hrun]
    cases fuel with
    | zero => exact ⟨s₁, by rw [parseValue_zero, turnResult]⟩
    | succ fuel =>
      obtain ⟨q, s₂, hvalue, hstuck'⟩ := parseValueWith_stuck
        (parseObject input fuel (.null : Json δ)) (parseArray input fuel .null 0) hstuck s₁
      have hlt : ¬ input.size ≤ q := Nat.not_le.mpr hstuck'.1
      rw [parseValue_succ, hvalue, turnResult, if_neg hlt]
      exact ih _ _ hstuck' _

end Endless

section Soundness

/-- No turn of an array loop has begun at a stuck position. -/
def NoStuck (input : Input) (s : ParseState) : Prop := ∀ h ∈ s.heads, ¬ Stuck input h

/-- Every turn that did not leave its loop has moved on. -/
def TurnsAdvance (s : ParseState) : Prop := ∀ turn ∈ s.turns, turn.1 < turn.2

/-- What a reader does from state `s`: it records heads and never drops one, it lands at `l`
or further, and if it comes to an end it has met no new stuck head. Where it has met none
at all, its turns move on, and it runs out of fuel only if that was `short`. -/
structure Sound (input : Input) (short : Prop) (l : ℕ) (s : ParseState)
    (r : EStateM.Result Abort ParseState (α × ℕ)) : Prop where
  keeps : ∀ h ∈ s.heads, h ∈ (finalState r).heads
  lands : ∀ a q s', r = .ok (a, q) s' → l ≤ q ∧ Placed input q s'
  clear : (∀ s', r ≠ .error .outOfFuel s') →
    ∀ h ∈ (finalState r).heads, h ∈ s.heads ∨ ¬ Stuck input h
  advance : NoStuck input (finalState r) → TurnsAdvance s → TurnsAdvance (finalState r)
  enough : NoStuck input (finalState r) → ∀ s', r = .error .outOfFuel s' → short

variable {short short' : Prop} {l l' : ℕ} {r r' : EStateM.Result Abort ParseState (α × ℕ)}

theorem Sound.of_ok {a : α} (hlog : SameLog s s') (hl : l ≤ q) (hq : Placed input q s') :
    Sound input short l s (.ok (a, q) s') where
  keeps h hh := by
    rw [finalState, hlog.1]
    exact hh
  lands := by
    intro b q' s'' heq
    cases heq
    exact ⟨hl, hq⟩
  clear := by
    intro _ h hh
    rw [finalState, hlog.1] at hh
    exact Or.inl hh
  advance := by
    intro _ hturns turn hturn
    rw [finalState, hlog.2] at hturn
    exact hturns turn hturn
  enough := by
    intro _ s'' heq
    cases heq

theorem Sound.of_error (hlog : SameLog s s') :
    Sound input short l s (.error .outOfRange s' : EStateM.Result _ _ (α × ℕ)) where
  keeps h hh := by
    rw [finalState, hlog.1]
    exact hh
  lands := by
    intro b q' s'' heq
    cases heq
  clear := by
    intro _ h hh
    rw [finalState, hlog.1] at hh
    exact Or.inl hh
  advance := by
    intro _ hturns turn hturn
    rw [finalState, hlog.2] at hturn
    exact hturns turn hturn
  enough := by
    intro _ s'' heq
    cases heq

theorem Sound.of_outOfFuel (hshort : short) :
    Sound input short l s (.error .outOfFuel s : EStateM.Result _ _ (α × ℕ)) where
  keeps h hh := hh
  lands := by
    intro b q' s'' heq
    cases heq
  clear := by
    intro hne
    exact absurd rfl (hne s)
  advance _ hturns := hturns
  enough _ _ _ := hshort

theorem Sound.mono (h : Sound input short l s r) (hshort : short → short') (hl : l' ≤ l) :
    Sound input short' l' s r where
  keeps := h.keeps
  lands a q s' heq := by
    obtain ⟨hlq, hq⟩ := h.lands a q s' heq
    exact ⟨by omega, hq⟩
  clear := h.clear
  advance := h.advance
  enough hno s' heq := hshort (h.enough hno s' heq)

/-- A reader continues where another one that came to an end has landed. -/
theorem Sound.trans {γ : Type} {c : γ} (h : Sound input short l s (.ok (c, q) s'))
    (h' : Sound input short' l' s' r) : Sound input short' l' s r where
  keeps x hx := h'.keeps x (h.keeps x hx)
  lands := h'.lands
  clear hne x hx := by
    rcases h'.clear hne x hx with hold | hfree
    · exact h.clear (fun s'' heq => by cases heq) x hold
    · exact Or.inr hfree
  advance hno hturns := by
    refine h'.advance hno (h.advance (fun x hx => ?_) hturns)
    exact hno x (h'.keeps x hx)
  enough := h'.enough

/-- The failure of a reader is the failure of what was to continue it. -/
theorem Sound.fail {γ : Type} {e : Abort} (h : Sound input short l s
    (.error e s' : EStateM.Result Abort ParseState (γ × ℕ))) :
    Sound input short l' s (.error e s' : EStateM.Result Abort ParseState (α × ℕ)) where
  keeps := h.keeps
  lands := by
    intro b q' s'' heq
    cases heq
  clear hne := by
    refine h.clear fun s'' heq => ?_
    cases heq
    exact hne s' rfl
  advance := h.advance
  enough hno s'' heq := by
    cases heq
    exact h.enough hno s' rfl

theorem Sound.of_sameLog (hlog : SameLog s s') (h : Sound input short l s' r) :
    Sound input short l s r where
  keeps x hx := h.keeps x (by rwa [hlog.1])
  lands := h.lands
  clear hne x hx := by
    have hcases := h.clear hne x hx
    rwa [hlog.1] at hcases
  advance hno hturns := by
    refine h.advance hno fun turn hturn => hturns turn ?_
    rwa [hlog.2] at hturn
  enough := h.enough

section Readers

variable [CharConv δ] {start : ℕ} {object array : ℕ → Parser (Json δ × ℕ)}

theorem parseValueWith_sound (hp : Placed input p s)
    (hl : l ≤ p ∨ l ≤ p + 1 ∧ p < input.size ∧ input.byte p ≠ ']' ∧ ¬ Stuck input p)
    (hobject : ∀ start s₁, p ≤ start → start < input.size → s₁.isValid = true →
      Sound input short (start + 1) s₁ (object (start + 1) s₁))
    (harray : ∀ start s₁, p ≤ start → start < input.size → s₁.isValid = true →
      Sound input short (start + 1) s₁ (array (start + 1) s₁)) :
    Sound input short l s (parseValueWith input object array p s) := by
  have hfollow : ∀ {start : ℕ} {s₁ : ParseState} {x : Parser (Json δ × ℕ)}, p ≤ start →
      SameLog s s₁ → Sound input short (start + 1) s₁ (x s₁) →
      Sound input short l s ((x >>= lastScan input) s₁) := by
    intro start s₁ x hle hlog hsound
    refine Sound.of_sameLog hlog ?_
    cases hx : x s₁ with
    | error e s₂ =>
      rw [hx] at hsound
      rw [bind_error hx]
      exact hsound.fail
    | ok value s₂ =>
      obtain ⟨res, pos⟩ := value
      rw [hx] at hsound
      obtain ⟨hpos, hplaced⟩ := hsound.lands res pos s₂ rfl
      obtain ⟨q, s₃, hlast, hlog₃, hle', hplaced'⟩ := lastScan_run res hplaced
      rw [bind_ok hx, hlast]
      exact hsound.trans (Sound.of_ok hlog₃ (by omega) hplaced')
  rcases parseValueWith_cases (δ := δ) hp with
    ⟨r, hrun, hleaf⟩ | ⟨start, s₁, hopens, hrun⟩
  · rw [hrun]
    rcases hleaf with ⟨s', rfl, hlog⟩ | ⟨res, q, s', rfl, hlog, hle, hplaced, hmove⟩
    · exact Sound.of_error hlog
    · refine Sound.of_ok hlog ?_ hplaced
      rcases hl with hl | ⟨hl, hpsize, hbyte, hfree⟩
      · omega
      · have hlt := hmove hpsize hbyte hfree
        omega
  · obtain ⟨hlog, hvalid, hle, hstart, _⟩ := hopens
    rcases hrun with ⟨_, hrun⟩ | ⟨_, hrun⟩
    · rw [hrun]
      exact hfollow hle hlog (hobject start s₁ hle hstart hvalid)
    · rw [hrun]
      exact hfollow hle hlog (harray start s₁ hle hstart hvalid)

omit [CharConv δ] in
theorem Placed.behind (hp : Placed input p s) (hclose : input.closes p = true)
    (hvalid : s'.isValid = s.isValid) : Placed input (p + 1) s' := by
  refine ⟨fun hv => ?_, fun hv => ?_⟩
  · have hpsize := hp.1 (hvalid.symm.trans hv)
    refine lt_size_of_byte_ne hpsize fun hnul => ?_
    simp [Input.closes, hnul] at hclose
  · rcases hp.2 (hvalid.symm.trans hv) with hpsize | hblocked
    · exact Or.inl (by omega)
    · have hfree := hblocked.2 p (Nat.le_refl p) hblocked.1
      rw [hclose, Bool.or_true] at hfree
      cases hfree

omit [CharConv δ] in
/-- A turn that moves on is recorded, or a stuck head has been met before. -/
theorem Sound.of_turn (hmove : (p < q ∧ (short → short')) ∨ ∃ h ∈ s.heads, Stuck input h)
    (h : Sound input short l { s with turns := (p, q) :: s.turns } r) :
    Sound input short' l s r where
  keeps := h.keeps
  lands := h.lands
  clear := h.clear
  advance hno hturns := by
    rcases hmove with ⟨hlt, _⟩ | ⟨x, hx, hstuck⟩
    · refine h.advance hno fun turn hturn => ?_
      obtain rfl | hold := List.mem_cons.mp hturn
      · exact hlt
      · exact hturns turn hold
    · exact absurd hstuck (hno x (h.keeps x hx))
  enough hno s' heq := by
    rcases hmove with ⟨_, hshort⟩ | ⟨x, hx, hstuck⟩
    · exact hshort (h.enough hno s' heq)
    · exact absurd hstuck (hno x (h.keeps x hx))

omit [CharConv δ] in
/-- A head is recorded that is not stuck if the reader comes to an end. -/
theorem Sound.of_head {s₁ : ParseState} (hheads : s₁.heads = p :: s.heads)
    (hturns : s₁.turns = s.turns)
    (hfree : (∀ s', r ≠ .error .outOfFuel s') → ¬ Stuck input p)
    (h : Sound input short l s₁ r) : Sound input short l s r where
  keeps x hx := h.keeps x (by rw [hheads]; exact List.mem_cons_of_mem _ hx)
  lands := h.lands
  clear hne x hx := by
    rcases h.clear hne x hx with hold | hnot
    · rw [hheads] at hold
      obtain rfl | hmem := List.mem_cons.mp hold
      · exact Or.inr (hfree hne)
      · exact Or.inl hmem
    · exact Or.inr hnot
  advance hno hadvance := by
    refine h.advance hno ?_
    unfold TurnsAdvance
    rw [hturns]
    exact hadvance
  enough := h.enough

omit [CharConv δ] in
/-- A turn is sound if its value is, and if what follows is from any place further on. -/
theorem turnResult_sound {store : Json δ → Json δ} {shortNext : ℕ → Prop}
    {next : Json δ → ℕ → ParseState → EStateM.Result Abort ParseState (Json δ × ℕ)}
    {value : EStateM.Result Abort ParseState (Json δ × ℕ)}
    (hvalue : Sound input short l s value) (hpl : p ≤ l) (hshort : short → short')
    (hmove : ∀ v q s₂, value = .ok (v, q) s₂ → q < input.size →
      p < q ∨ ∃ h ∈ s₂.heads, Stuck input h)
    (hnext : ∀ res q s₂, q < input.size → Placed input q s₂ →
      Sound input (shortNext q) q s₂ (next res q s₂))
    (hshortNext : ∀ q, p < q → q < input.size → shortNext q → short') :
    Sound input short' p s (turnResult input p store next value) := by
  cases hr : value with
  | error e s₂ =>
    rw [hr] at hvalue
    exact hvalue.fail.mono hshort (Nat.le_refl p)
  | ok x s₂ =>
    obtain ⟨v, q⟩ := x
    rw [hr] at hvalue
    obtain ⟨hlq, hplaced⟩ := hvalue.lands v q s₂ rfl
    by_cases hsize : input.size ≤ q
    · rw [turnResult, if_pos hsize]
      refine hvalue.trans (Sound.of_ok ⟨rfl, rfl⟩ (by omega) ⟨fun hv => ?_, fun _ => ?_⟩)
      · cases hv
      · exact Or.inl (by omega)
    · rw [turnResult, if_neg hsize]
      have hq : q < input.size := Nat.not_le.mp hsize
      have hrest := hnext (store v) q { s₂ with turns := (p, q) :: s₂.turns } hq hplaced
      refine (hvalue.trans (hrest.of_turn ?_)).mono id (by omega)
      rcases hmove v q s₂ hr hq with hlt | hstuck
      · exact Or.inl ⟨hlt, hshortNext q hlt hq⟩
      · exact Or.inr hstuck

/-- The three readers are sound, and fuel for two turns at each position is enough. -/
theorem readers_sound (input : Input) (fuel : ℕ) :
    (∀ (res : Json δ) (p : ℕ) (s : ParseState), Placed input p s → p ≤ input.size →
      Sound input (fuel < 2 * (input.size - p) + 2) p s (parseObject input fuel res p s)) ∧
    (∀ (res : Json δ) (index p : ℕ) (s : ParseState), Placed input p s →
      Sound input (fuel < 2 * (input.size - p) + 2) p s (parseArray input fuel res index p s)) ∧
    ∀ (l p : ℕ) (s : ParseState), Placed input p s →
      (l ≤ p ∨ l ≤ p + 1 ∧ p < input.size ∧ input.byte p ≠ ']' ∧ ¬ Stuck input p) →
      Sound input (fuel < 2 * (input.size - p) + 1) l s
        (parseValue input fuel p s : EStateM.Result _ _ (Json δ × ℕ)) := by
  induction fuel with
  | zero =>
    refine ⟨fun res p s _ _ => ?_, fun res index p s _ => ?_, fun l p s _ _ => ?_⟩
    · rw [parseObject_zero]
      exact Sound.of_outOfFuel (by omega)
    · rw [parseArray_zero]
      exact Sound.of_outOfFuel (by omega)
    · rw [parseValue_zero]
      exact Sound.of_outOfFuel (by omega)
  | succ fuel ih =>
    obtain ⟨ihObject, ihArray, ihValue⟩ := ih
    refine ⟨fun res p s hp hpsize => ?_, fun res index p s hp => ?_, fun l p s hp hl => ?_⟩
    · -- An object: the key moves on, whatever its value does.
      by_cases hbyte : input.byte p = '}'
      · obtain ⟨s', hlog, hvalid, _, hok⟩ := parseObject_close hbyte res s
        have hclose : input.closes p = true := by simp [Input.closes, hbyte]
        rw [hok]
        exact Sound.of_ok hlog (by omega) (hp.behind hclose hvalid)
      · rcases parseObject_turn hp hpsize hbyte res with
          ⟨s', hlog, hrun⟩ | ⟨key, pos, s', hlog, hpos, hplaced, hrun⟩
        · rw [hrun]
          exact Sound.of_error hlog
        · rw [hrun]
          have hvalue := ihValue pos pos s' hplaced (Or.inl (Nat.le_refl pos))
          refine Sound.of_sameLog hlog (turnResult_sound hvalue (by omega) (by omega)
            (fun v q s₂ hr _ => Or.inl ?_)
            (fun res q s₂ hq hplaced' => ihObject res q s₂ hplaced' (by omega))
            fun q hlt hq hshort => by omega)
          have hlq := (hvalue.lands v q s₂ hr).1
          omega
    · -- An array: the turn moves on unless its head is stuck.
      by_cases hbyte : input.byte p = ']'
      · obtain ⟨s', hlog, hvalid, _, hok⟩ := parseArray_close hbyte res index s
        have hclose : input.closes p = true := by simp [Input.closes, hbyte]
        rw [hok]
        exact Sound.of_ok hlog (by omega) (hp.behind hclose hvalid)
      · obtain ⟨s₁, hheads, hturns, hvalid, _, hrun⟩ := parseArray_turn hbyte res index s
        have hfree : (∀ s', parseArray input (fuel + 1) res index p s ≠ .error .outOfFuel s') →
            ¬ Stuck input p := by
          intro hends hstuck
          obtain ⟨s', hout⟩ := parseArray_stuck (fuel + 1) res index hstuck s
          exact hends s' hout
        refine Sound.of_head hheads hturns hfree ?_
        rw [hrun]
        have hplaced : Placed input p s₁ :=
          ⟨fun hv => hp.1 (hvalid.symm.trans hv), fun hv => hp.2 (hvalid.symm.trans hv)⟩
        have hvalue := ihValue p p s₁ hplaced (Or.inl (Nat.le_refl p))
        refine turnResult_sound hvalue (Nat.le_refl p) (by omega) (fun v q s₂ hr hq => ?_)
          (fun res q s₂ _ hplaced' => ihArray res (index + 1) q s₂ hplaced')
          fun q hlt hq hshort => by omega
        by_cases hstuck : Stuck input p
        · refine Or.inr ⟨p, ?_, hstuck⟩
          have hkeeps := hvalue.keeps p (by rw [hheads]; exact List.mem_cons_self ..)
          rw [hr] at hkeeps
          exact hkeeps
        · have hpq := (hvalue.lands v q s₂ hr).1
          have hmoved := ihValue (p + 1) p s₁ hplaced
            (Or.inr ⟨Nat.le_refl _, by omega, hbyte, hstuck⟩)
          exact Or.inl (hmoved.lands v q s₂ hr).1
    · rw [parseValue_succ]
      have hinside : ∀ start s₁, start < input.size → s₁.isValid = true →
          Placed input (start + 1) s₁ := by
        intro start s₁ hstart hs₁
        refine ⟨fun _ => hstart, fun hv => ?_⟩
        rw [hs₁] at hv
        cases hv
      refine parseValueWith_sound hp hl (fun start s₁ hle hstart hs₁ => ?_)
        fun start s₁ hle hstart hs₁ => ?_
      · exact (ihObject .null (start + 1) s₁ (hinside start s₁ hstart hs₁) hstart).mono
          (by omega) (Nat.le_refl _)
      · exact (ihArray .null 0 (start + 1) s₁ (hinside start s₁ hstart hs₁)).mono
          (by omega) (Nat.le_refl _)

end Readers

section Fuel

/-- With more fuel a reader that ran out of it may go on, and any other one does the same. -/
def Extends (r r' : EStateM.Result Abort ParseState α) : Prop :=
  r = r' ∨ ∃ s, r = .error .outOfFuel s ∧ ∀ h ∈ s.heads, h ∈ (finalState r').heads

theorem Extends.trans {r r' r'' : EStateM.Result Abort ParseState α} (h : Extends r r')
    (h' : Extends r' r'') : Extends r r'' := by
  rcases h with rfl | ⟨s, hr, hkept⟩
  · exact h'
  · refine Or.inr ⟨s, hr, fun x hx => ?_⟩
    rcases h' with rfl | ⟨s', rfl, hkept'⟩
    · exact hkept x hx
    · exact hkept' x (hkept x hx)

theorem Extends.heads {r r' : EStateM.Result Abort ParseState α} (h : Extends r r') :
    ∀ x ∈ (finalState r).heads, x ∈ (finalState r').heads := by
  intro x hx
  rcases h with rfl | ⟨s, rfl, hkept⟩
  · exact hx
  · exact hkept x hx

theorem Extends.eq {r r' : EStateM.Result Abort ParseState α} (h : Extends r r')
    (hends : ∀ s, r ≠ .error .outOfFuel s) : r = r' := by
  rcases h with heq | ⟨s, hr, _⟩
  · exact heq
  · exact absurd hr (hends s)

/-- What follows a reader may not drop a head. -/
theorem Extends.bind {β : Type} {x y : Parser α} {f : α → Parser β}
    (h : Extends (x s) (y s))
    (hkeeps : ∀ a s', y s = .ok a s' → ∀ k ∈ s'.heads, k ∈ (finalState (f a s')).heads) :
    Extends ((x >>= f) s) ((y >>= f) s) := by
  rcases h with heq | ⟨s', hx, hkept⟩
  · refine Or.inl ?_
    cases hy : y s with
    | error e s' => rw [bind_error hy, bind_error (heq.trans hy)]
    | ok a s' => rw [bind_ok hy, bind_ok (heq.trans hy)]
  · refine Or.inr ⟨s', bind_error hx, fun k hk => ?_⟩
    have hfinal := hkept k hk
    cases hy : y s with
    | error e s'' =>
      rw [hy] at hfinal
      rw [bind_error hy]
      exact hfinal
    | ok a s'' =>
      rw [hy] at hfinal
      rw [bind_ok hy]
      exact hkeeps a s'' hy k hfinal

theorem turnResult_extends {store : Json δ → Json δ}
    {next next' : Json δ → ℕ → ParseState → EStateM.Result Abort ParseState (Json δ × ℕ)}
    {value value' : EStateM.Result Abort ParseState (Json δ × ℕ)}
    (hvalue : Extends value value')
    (hplaced : ∀ v q s', value' = .ok (v, q) s' → Placed input q s')
    (hnext : ∀ res q s', q < input.size → Placed input q s' →
      Extends (next res q s') (next' res q s'))
    (hkeeps : ∀ res q s', q < input.size → Placed input q s' →
      ∀ h ∈ s'.heads, h ∈ (finalState (next' res q s')).heads) :
    Extends (turnResult input p store next value) (turnResult input p store next' value') := by
  rcases hvalue with rfl | ⟨s', rfl, hkept⟩
  · cases hr : value with
    | error e s' => exact Or.inl rfl
    | ok x s' =>
      obtain ⟨v, q⟩ := x
      by_cases hsize : input.size ≤ q
      · rw [turnResult, turnResult, if_pos hsize, if_pos hsize]
        exact Or.inl rfl
      · rw [turnResult, turnResult, if_neg hsize, if_neg hsize]
        exact hnext _ q _ (Nat.not_le.mp hsize) (hplaced v q s' hr)
  · refine Or.inr ⟨s', rfl, fun h hh => ?_⟩
    have hfinal := hkept h hh
    cases hr : value' with
    | error e s'' =>
      rw [hr] at hfinal
      exact hfinal
    | ok x s'' =>
      obtain ⟨v, q⟩ := x
      rw [hr] at hfinal
      by_cases hsize : input.size ≤ q
      · rw [turnResult, if_pos hsize]
        exact hfinal
      · rw [turnResult, if_neg hsize]
        exact hkeeps _ q { s'' with turns := (p, q) :: s''.turns } (Nat.not_le.mp hsize)
          (hplaced v q s'' hr) h hfinal

variable [CharConv δ]

/-- One more unit of fuel extends what each of the three readers does. -/
theorem readers_extend (fuel : ℕ) :
    (∀ (res : Json δ) (p : ℕ) (s : ParseState), Placed input p s → p ≤ input.size →
      Extends (parseObject input fuel res p s) (parseObject input (fuel + 1) res p s)) ∧
    (∀ (res : Json δ) (index p : ℕ) (s : ParseState), Placed input p s →
      Extends (parseArray input fuel res index p s)
        (parseArray input (fuel + 1) res index p s)) ∧
    ∀ (p : ℕ) (s : ParseState), Placed input p s →
      Extends (parseValue input fuel p s : EStateM.Result _ _ (Json δ × ℕ))
        (parseValue input (fuel + 1) p s) := by
  induction fuel with
  | zero =>
    obtain ⟨hobject, harray, hvalue⟩ := readers_sound (δ := δ) input 1
    refine ⟨fun res p s hp hpsize => ?_, fun res index p s hp => ?_, fun p s hp => ?_⟩
    · exact Or.inr ⟨s, parseObject_zero res s, (hobject res p s hp hpsize).keeps⟩
    · exact Or.inr ⟨s, parseArray_zero res index s, (harray res index p s hp).keeps⟩
    · exact Or.inr ⟨s, parseValue_zero s, (hvalue p p s hp (Or.inl (Nat.le_refl p))).keeps⟩
  | succ fuel ih =>
    obtain ⟨ihObject, ihArray, ihValue⟩ := ih
    obtain ⟨hobject, harray, hvalue⟩ := readers_sound (δ := δ) input (fuel + 1)
    have hlanded : ∀ {p : ℕ} {s : ParseState}, Placed input p s → ∀ v q s',
        parseValue input (fuel + 1) p s = .ok ((v : Json δ), q) s' → Placed input q s' :=
      fun {p s} hp v q s' heq => ((hvalue p p s hp (Or.inl (Nat.le_refl p))).lands v q s' heq).2
    refine ⟨fun res p s hp hpsize => ?_, fun res index p s hp => ?_, fun p s hp => ?_⟩
    · by_cases hbyte : input.byte p = '}'
      · obtain ⟨s', _, _, _, hok⟩ := parseObject_close hbyte res s
        exact Or.inl ((hok fuel).trans (hok (fuel + 1)).symm)
      · rcases parseObject_turn hp hpsize hbyte res with
          ⟨s', _, hrun⟩ | ⟨key, pos, s', _, _, hplaced, hrun⟩
        · exact Or.inl ((hrun fuel).trans (hrun (fuel + 1)).symm)
        · rw [hrun fuel, hrun (fuel + 1)]
          exact turnResult_extends (ihValue pos s' hplaced) (hlanded hplaced)
            (fun res q s₂ hq hplaced' => ihObject res q s₂ hplaced' (by omega))
            fun res q s₂ hq hplaced' => (hobject res q s₂ hplaced' (by omega)).keeps
    · by_cases hbyte : input.byte p = ']'
      · obtain ⟨s', _, _, _, hok⟩ := parseArray_close hbyte res index s
        exact Or.inl ((hok fuel).trans (hok (fuel + 1)).symm)
      · obtain ⟨s₁, _, _, hvalid, _, hrun⟩ := parseArray_turn hbyte res index s
        have hplaced : Placed input p s₁ :=
          ⟨fun hv => hp.1 (hvalid.symm.trans hv), fun hv => hp.2 (hvalid.symm.trans hv)⟩
        rw [hrun fuel, hrun (fuel + 1)]
        exact turnResult_extends (ihValue p s₁ hplaced) (hlanded hplaced)
          (fun res q s₂ _ hplaced' => ihArray res (index + 1) q s₂ hplaced')
          fun res q s₂ _ hplaced' => (harray res (index + 1) q s₂ hplaced').keeps
    · rw [parseValue_succ, parseValue_succ]
      rcases parseValueWith_cases (δ := δ) hp with
        ⟨r, hrun, _⟩ | ⟨start, s₁, hopens, hrun⟩
      · exact Or.inl ((hrun _ _).trans (hrun _ _).symm)
      · have hstart := hopens.lt
        have hvalid := hopens.valid
        have hinside : Placed input (start + 1) s₁ := by
          refine ⟨fun _ => hstart, fun hv => ?_⟩
          rw [hvalid] at hv
          cases hv
        have hlast : ∀ {r : EStateM.Result Abort ParseState (Json δ × ℕ)} {short : Prop},
            Sound input short (start + 1) s₁ r → ∀ a s', r = .ok a s' →
            ∀ h ∈ s'.heads, h ∈ (finalState (lastScan input a s')).heads := by
          intro r short hsound a s' heq h hh
          obtain ⟨res, pos⟩ := a
          obtain ⟨q, s₂, hok, hlog, _⟩ := lastScan_run res (hsound.lands res pos s' heq).2
          rw [hok, finalState, hlog.1]
          exact hh
        rcases hrun with ⟨_, hrun⟩ | ⟨_, hrun⟩
        · rw [hrun, hrun]
          exact (ihObject .null (start + 1) s₁ hinside hstart).bind
            (hlast (hobject .null (start + 1) s₁ hinside hstart))
        · rw [hrun, hrun]
          exact (ihArray .null 0 (start + 1) s₁ hinside).bind
            (hlast (harray .null 0 (start + 1) s₁ hinside))

end Fuel

section Parse

variable [CharConv δ]

omit [CharConv δ] in
theorem finish_ok (x : Json δ × ℕ) (s : ParseState) : ∃ res, finish x s = .ok res s := by
  have hget : (get : Parser ParseState) s = .ok s s := rfl
  by_cases hvalid : s.isValid = true
  · refine ⟨x.1, (bind_ok hget).trans ?_⟩
    rw [if_pos hvalid]
    rfl
  · refine ⟨.ofValue .null, (bind_ok hget).trans ?_⟩
    rw [if_neg hvalid]
    rfl

omit [CharConv δ] in
theorem finalState_finish (x : Parser (Json δ × ℕ)) (s : ParseState) :
    finalState ((x >>= finish) s) = finalState (x s) ∧
      ∀ e s', (x >>= finish) s = .error e s' ↔ x s = .error e s' := by
  cases hx : x s with
  | error e s₁ =>
    rw [bind_error hx]
    refine ⟨rfl, fun e' s' => ?_⟩
    constructor
    · intro heq
      cases heq
      rfl
    · intro heq
      cases heq
      rfl
  | ok v s₁ =>
    obtain ⟨res, hok⟩ := finish_ok v s₁
    rw [bind_ok hx, hok]
    refine ⟨rfl, fun e' s' => ?_⟩
    constructor
    · intro heq
      cases heq
    · intro heq
      cases heq

/-- `parse` reads one container from a placed position. -/
theorem parse_container (hsize : input.size ≠ 0) :
    ∃ (x : ℕ → Parser (Json δ × ℕ)) (s : ParseState), s.heads = [] ∧ s.turns = [] ∧
      (∀ fuel, parse input fuel initial = (x fuel >>= finish) s) ∧
      (∀ fuel, Sound input (fuel < 2 * input.size + 2) 0 s (x fuel s)) ∧
      ∀ fuel, Extends (x fuel s) (x (fuel + 1) s) := by
  obtain ⟨start, exceeded, s₁, hscan, hlog₁, _, _, _, hend⟩ :=
    scanChar_run input (fun c => c == '{' || c == '[') 0 initial
  obtain ⟨s₂, hread, hlog₂, hvalid₂⟩ := charAt_eq input start s₁
  obtain ⟨hheads, hturns⟩ := hlog₁.trans hlog₂
  have hrun : ∀ fuel, (parse input fuel initial : EStateM.Result _ _ (Json δ)) =
      ((if input.byte start == '{' then parseObject input fuel .null (start + 1)
        else parseArray input fuel .null 0 (start + 1)) >>= finish) s₂ := by
    intro fuel
    rw [parse, if_neg hsize]
    refine (bind_ok hscan).trans ((bind_ok hread).trans ?_)
    split <;> rfl
  have hplaced : Placed input (start + 1) s₂ := by
    refine ⟨fun hv => ?_, fun hv => ?_⟩
    · rcases hend with ⟨_, _, hstart, _⟩ | ⟨_, _, _, hinvalid⟩
      · omega
      · rw [hvalid₂, hinvalid] at hv
        cases hv
    · rcases hend with ⟨_, _, _, hvalid⟩ | ⟨_, hout, _, _⟩
      · rw [hvalid₂, hvalid] at hv
        cases hv
      · exact Or.inl (by omega)
  by_cases hbrace : (input.byte start == '{') = true
  · -- The scan has met the brace in the text: the byte at the end of the text is another one.
    have hin : start + 1 ≤ input.size := by
      rcases hend with ⟨_, _, hstart, _⟩ | ⟨_, hout, hstart, _⟩
      · omega
      · have heq : start = input.size := by omega
        rw [heq, byte_size] at hbrace
        cases hbrace
    simp only [hbrace, if_true] at hrun
    refine ⟨fun fuel => parseObject input fuel .null (start + 1), s₂, hheads, hturns, hrun,
      fun fuel => ?_, fun fuel => (readers_extend fuel).1 _ _ _ hplaced hin⟩
    exact ((readers_sound input fuel).1 _ _ _ hplaced hin).mono (by omega) (Nat.zero_le _)
  · simp only [hbrace] at hrun
    refine ⟨fun fuel => parseArray input fuel .null 0 (start + 1), s₂, hheads, hturns, hrun,
      fun fuel => ?_, fun fuel => (readers_extend fuel).2.1 _ _ _ _ hplaced⟩
    exact ((readers_sound input fuel).2.1 _ _ _ _ hplaced).mono (by omega) (Nat.zero_le _)

/-- A run that comes to an end is the run at any greater fuel. -/
theorem parse_extends (input : Input) {fuel fuel' : ℕ} (h : fuel ≤ fuel') :
    Extends (parse input fuel initial : EStateM.Result _ _ (Json δ))
      (parse input fuel' initial) := by
  by_cases hsize : input.size = 0
  · have hnull : ∀ fuel, (parse input fuel initial : EStateM.Result _ _ (Json δ)) =
        .ok (.ofValue .null) initial := by
      intro fuel
      rw [parse, if_pos hsize]
      rfl
    rw [hnull, hnull]
    exact Or.inl rfl
  · obtain ⟨x, s, _, _, hrun, _, hextends⟩ := parse_container (δ := δ) hsize
    induction h with
    | refl => exact Or.inl rfl
    | step _ ih =>
      refine ih.trans ?_
      rw [hrun, hrun]
      refine (hextends _).bind fun v s' _ h hh => ?_
      obtain ⟨res, hok⟩ := finish_ok v s'
      rw [hok]
      exact hh

/-- What a run of `parse` has recorded, and how much fuel it needs. -/
theorem parse_sound (input : Input) (fuel : ℕ) {r : EStateM.Result Abort ParseState (Json δ)}
    (hr : parse input fuel initial = r) :
    ((∀ s, r ≠ .error .outOfFuel s) → NoStuck input (finalState r)) ∧
      (NoStuck input (finalState r) → TurnsAdvance (finalState r) ∧
        ∀ s, r = .error .outOfFuel s → fuel < 2 * input.size + 2) := by
  by_cases hsize : input.size = 0
  · rw [parse, if_pos hsize] at hr
    subst hr
    refine ⟨fun _ h hh => ?_, fun _ => ⟨fun turn hturn => ?_, fun s heq => ?_⟩⟩
    · cases hh
    · cases hturn
    · cases heq
  · obtain ⟨x, s, hheads, hturns, hrun, hsound, _⟩ := parse_container (δ := δ) hsize
    obtain ⟨hfinal, hfails⟩ := finalState_finish (x fuel) s
    rw [hrun] at hr
    subst hr
    rw [hfinal]
    refine ⟨fun hends h hh => ?_, fun hno => ⟨?_, fun s' heq => ?_⟩⟩
    · rcases (hsound fuel).clear (fun s' heq => hends s' ((hfails _ _).mpr heq)) h hh with
        hold | hfree
      · rw [hheads] at hold
        cases hold
      · exact hfree
    · refine (hsound fuel).advance hno fun turn hturn => ?_
      rw [hturns] at hturn
      cases hturn
    · exact (hsound fuel).enough hno s' ((hfails _ _).mp heq)

variable (δ) in
/-- `parse` comes to an end, and no turn of its loops that goes on stands still. -/
structure ParsesFinitely (input : Input) : Prop where
  finishes : ∃ fuel, ∀ s, (parse input fuel initial : EStateM.Result _ _ (Json δ)) ≠
    .error .outOfFuel s
  advances : ∀ fuel,
    TurnsAdvance (finalState (parse input fuel initial : EStateM.Result _ _ (Json δ)))

/-- Once the reader comes to an end, every turn of it that goes on has moved on. -/
theorem parsesFinitely_of_finishes (hfinishes : ∃ fuel, ∀ s,
      (parse input fuel initial : EStateM.Result _ _ (Json δ)) ≠ .error .outOfFuel s) :
    ParsesFinitely δ input := by
  refine ⟨hfinishes, fun fuel => ((parse_sound (δ := δ) input fuel rfl).2 fun k hk => ?_).1⟩
  obtain ⟨enough, hends⟩ := hfinishes
  -- The run that ends is also the run with both amounts of fuel, where every head is free.
  have hsame := (parse_extends (δ := δ) input (Nat.le_max_right fuel enough)).eq hends
  have hfree := (parse_sound input (max fuel enough) hsame.symm).1 hends
  rw [hsame] at hfree
  exact hfree k ((parse_extends input (Nat.le_max_left fuel enough)).heads k hk)

end Parse

end Soundness

end OrderBookServer.JsonParse
