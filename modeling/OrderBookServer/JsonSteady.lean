import OrderBookServer.Termination

/-!
Programs of the reader whose outcome depends on the state only through the validity flag,
and that never lower the record of what was read. All of the reader is made of them, so
what a reader returns at a position can be spoken of without the state it began in.
-/
namespace OrderBookServer.JsonParse

variable {δ α β : Type} {input : Input} {p : ℕ} {s t : ParseState}

/-- What a run returns, with the flag it leaves. -/
def outcome : EStateM.Result Abort ParseState α → Except Abort (α × Bool)
  | .ok a s => .ok (a, s.isValid)
  | .error e _ => .error e

structure Steady (x : Parser α) : Prop where
  same : ∀ s t, s.isValid = t.isValid → outcome (x s) = outcome (x t)
  grows : ∀ s, s.reach ≤ (finalState (x s)).reach

section Rules

variable {x y : Parser α} {f : α → Parser β}

theorem Steady.pure (a : α) : Steady (pure a : Parser α) where
  same s t hv := by
    change Except.ok (a, s.isValid) = Except.ok (a, t.isValid)
    rw [hv]
  grows _ := Nat.le_refl _

theorem Steady.throw (e : Abort) : Steady (throw e : Parser α) where
  same _ _ _ := rfl
  grows _ := Nat.le_refl _

theorem outcome_ok {r : EStateM.Result Abort ParseState α} {a : α} {b : Bool}
    (h : outcome r = .ok (a, b)) : ∃ s, r = .ok a s ∧ s.isValid = b := by
  cases r with
  | ok a' s =>
    cases h
    exact ⟨s, rfl, rfl⟩
  | error e s => cases h

theorem outcome_error {r : EStateM.Result Abort ParseState α} {e : Abort}
    (h : outcome r = .error e) : ∃ s, r = .error e s := by
  cases r with
  | ok a s => cases h
  | error e' s =>
    cases h
    exact ⟨s, rfl⟩

theorem Steady.bind (hx : Steady x) (hf : ∀ a, Steady (f a)) : Steady (x >>= f) where
  same s t hv := by
    have hsame := hx.same s t hv
    cases hrun : x s with
    | error e s₁ =>
      rw [hrun] at hsame
      obtain ⟨t₁, ht⟩ := outcome_error hsame.symm
      rw [bind_error hrun, bind_error ht]
      rfl
    | ok a s₁ =>
      rw [hrun] at hsame
      obtain ⟨t₁, ht, hv₁⟩ := outcome_ok hsame.symm
      rw [bind_ok hrun, bind_ok ht]
      exact (hf a).same s₁ t₁ hv₁.symm
  grows s := by
    have hle := hx.grows s
    cases hrun : x s with
    | error e s₁ =>
      rw [hrun] at hle
      rw [bind_error hrun]
      exact hle
    | ok a s₁ =>
      rw [hrun] at hle
      rw [bind_ok hrun]
      exact Nat.le_trans hle ((hf a).grows s₁)

theorem Steady.ite {c : Prop} [Decidable c] (hx : Steady x) (hy : Steady y) :
    Steady (if c then x else y) := by
  by_cases hc : c
  · rw [if_pos hc]
    exact hx
  · rw [if_neg hc]
    exact hy

/-- A test of the flag. -/
theorem Steady.check (hx : Steady x) (hy : Steady y) :
    Steady ((get : Parser ParseState) >>= fun s => if s.isValid then x else y) where
  same s t hv := by
    change outcome ((if s.isValid then x else y) s) = outcome ((if t.isValid then x else y) t)
    rw [hv]
    by_cases hc : t.isValid = true
    · rw [if_pos hc]
      exact hx.same s t hv
    · rw [if_neg hc]
      exact hy.same s t hv
  grows s := by
    change s.reach ≤ (finalState ((if s.isValid then x else y) s)).reach
    by_cases hc : s.isValid = true
    · rw [if_pos hc]
      exact hx.grows s
    · rw [if_neg hc]
      exact hy.grows s

theorem Steady.record {g : ParseState → ParseState} {k : PUnit → Parser β}
    (hvalid : ∀ s, (g s).isValid = s.isValid) (hreach : ∀ s, (g s).reach = s.reach)
    (hk : Steady (k ⟨⟩)) : Steady (modify g >>= k) where
  same s t hv := hk.same (g s) (g t) (by rw [hvalid, hvalid, hv])
  grows s := by
    have hle := hk.grows (g s)
    rw [hreach] at hle
    exact hle

end Rules

section Scanners

theorem steady_charAt (i : ℕ) : Steady (charAt input i) where
  same s t hv := by
    change Except.ok (input.byte i, s.isValid) = Except.ok (input.byte i, t.isValid)
    rw [hv]
  grows s := Nat.le_max_left ..

theorem steady_checkExceedSize (i : ℕ) : Steady (checkExceedSize input i) where
  same s t hv := by
    unfold checkExceedSize
    by_cases hi : input.size ≤ i
    · rw [if_pos hi, if_pos hi]
      rfl
    · rw [if_neg hi, if_neg hi, outcome, outcome, hv]
  grows s := by
    unfold checkExceedSize
    by_cases hi : input.size ≤ i
    · rw [if_pos hi]
      exact Nat.le_refl _
    · rw [if_neg hi]
      exact Nat.le_refl _

theorem steady_getSubString (start stop : ℕ) : Steady (getSubString input start stop) :=
  Steady.ite (Steady.pure _) (Steady.throw _)

theorem steady_scanFrom {stop : ℕ → Parser Bool} (hstop : ∀ i, Steady (stop i)) (turns i : ℕ) :
    Steady (scanFrom input stop turns i) := by
  induction turns generalizing i with
  | zero =>
    refine (hstop i).bind fun _ => Steady.ite (Steady.pure _) ?_
    exact (steady_checkExceedSize _).bind fun _ => Steady.pure _
  | succ turns ih =>
    refine (hstop i).bind fun _ => Steady.ite (Steady.pure _) ?_
    exact (steady_checkExceedSize _).bind fun _ => Steady.ite (Steady.pure _) (ih _)

theorem steady_scanChar (stop : Char → Bool) (p : ℕ) : Steady (scanChar input stop p) :=
  steady_scanFrom (fun i => (steady_charAt i).bind fun _ => Steady.pure _) _ p

theorem steady_isWord (word : Text) (follows : Char → Bool) (start : ℕ) :
    Steady (isWord input word follows start) :=
  Steady.ite ((steady_charAt _).bind fun _ => Steady.pure _) (Steady.pure _)

theorem steady_isBoolean (start : ℕ) : Steady (isBoolean input start) :=
  (steady_isWord _ _ _).bind fun _ => Steady.ite (Steady.pure _)
    ((steady_isWord _ _ _).bind fun _ => Steady.ite (Steady.pure _) (Steady.pure _))

theorem steady_valueStop (i : ℕ) : Steady (valueStop input i) :=
  (steady_charAt i).bind fun _ => Steady.ite (Steady.pure _) ((steady_isBoolean i).bind fun _ =>
    Steady.ite (Steady.pure _) ((steady_isWord _ _ _).bind fun _ =>
      Steady.ite (Steady.pure _) (Steady.pure _)))

theorem steady_numberStop (i : ℕ) : Steady (numberStop input i) :=
  (steady_charAt i).bind fun _ => Steady.ite (Steady.pure _)
    (Steady.ite ((steady_charAt _).bind fun _ => Steady.pure _) (Steady.pure _))

theorem steady_parseValueString (p : ℕ) : Steady (parseValueString input p) :=
  (steady_scanChar _ p).bind fun _ => (steady_getSubString _ _).bind fun _ => Steady.pure _

theorem steady_parseKey (p : ℕ) : Steady (parseKey input p) :=
  (steady_scanChar _ p).bind fun _ => (steady_charAt _).bind fun _ =>
    Steady.ite (Steady.pure _) (steady_parseValueString _)

end Scanners

section Readers

theorem steady_lastScan (value : Json δ × ℕ) : Steady (lastScan input value) :=
  (steady_scanChar _ _).bind fun _ => Steady.pure _

variable [CharConv δ]

theorem steady_parseValueNumber (p : ℕ) :
    Steady (parseValueNumber input p : Parser (Json δ × ℕ)) := by
  unfold parseValueNumber
  refine (steady_scanFrom steady_numberStop _ _).bind fun _ =>
    (steady_getSubString _ _).bind fun text => Steady.ite ?_ ?_
  · cases CharConv.fromChars (δ := δ) text with
    | none => exact Steady.pure _
    | some x => exact Steady.pure _
  · cases int64FromChars text with
    | none => exact Steady.pure _
    | some x => exact Steady.pure _

section Values

variable {object array : ℕ → Parser (Json δ × ℕ)}

theorem steady_parseBranch (hobject : ∀ p, Steady (object p)) (harray : ∀ p, Steady (array p))
    (start p : ℕ) : Steady (parseBranch input object array start p) := by
  unfold parseBranch
  refine (steady_charAt _).bind fun _ => Steady.ite ?_ (Steady.ite (steady_parseValueNumber _) ?_)
  · exact (steady_parseValueString _).bind fun _ => Steady.pure _
  · refine (steady_isBoolean _).bind fun b => ?_
    cases b with
    | some b =>
      cases b with
      | true => exact Steady.pure _
      | false => exact Steady.pure _
    | none =>
      refine (steady_isWord _ _ _).bind fun _ => Steady.ite (Steady.pure _) ?_
      exact Steady.ite (hobject _) (Steady.ite (harray _) (Steady.pure _))

theorem steady_valueTail (input : Input) (hobject : ∀ p, Steady (object p))
    (harray : ∀ p, Steady (array p))
    (c : Char) (start p : ℕ) : Steady (valueTail input object array c start p) :=
  Steady.check ((steady_parseBranch hobject harray _ _).bind fun value => steady_lastScan value)
    (Steady.pure _)

theorem steady_parseValueWith (hobject : ∀ p, Steady (object p)) (harray : ∀ p, Steady (array p))
    (p : ℕ) : Steady (parseValueWith input object array p) := by
  have htail := steady_valueTail input hobject harray
  unfold parseValueWith
  refine (steady_scanFrom steady_valueStop _ _).bind fun _ => Steady.ite ?_ ?_
  · exact (Steady.pure _).bind fun c => htail c _ _
  · exact (steady_charAt _).bind fun c => htail c _ _

end Values

theorem steady_readers (input : Input) (fuel : ℕ) :
    (∀ (res : Json δ) (p : ℕ), Steady (parseObject input fuel res p)) ∧
    (∀ (res : Json δ) (index p : ℕ), Steady (parseArray input fuel res index p)) ∧
    ∀ p : ℕ, Steady (parseValue input fuel p : Parser (Json δ × ℕ)) := by
  induction fuel with
  | zero =>
    refine ⟨fun res p => ?_, fun res index p => ?_, fun p => ?_⟩
    · rw [parseObject]
      exact Steady.throw _
    · rw [parseArray]
      exact Steady.throw _
    · rw [parseValue]
      exact Steady.throw _
  | succ fuel ih =>
    obtain ⟨ihObject, ihArray, ihValue⟩ := ih
    refine ⟨fun res p => ?_, fun res index p => ?_, fun p => ?_⟩
    · rw [parseObject]
      refine (steady_charAt _).bind fun _ => Steady.ite (Steady.pure _) ?_
      refine (steady_parseKey _).bind fun key => (ihValue _).bind fun value => ?_
      refine (steady_checkExceedSize _).bind fun _ => Steady.ite (Steady.pure _) ?_
      exact Steady.record (fun _ => rfl) (fun _ => rfl) (ihObject _ _)
    · rw [parseArray]
      refine (steady_charAt _).bind fun _ => Steady.ite (Steady.pure _) ?_
      refine Steady.record (fun _ => rfl) (fun _ => rfl) ((ihValue _).bind fun value => ?_)
      refine (steady_checkExceedSize _).bind fun _ => Steady.ite (Steady.pure _) ?_
      exact Steady.record (fun _ => rfl) (fun _ => rfl) (ihArray _ _ _)
    · rw [parseValue]
      exact steady_parseValueWith (fun p => ihObject _ p) (fun p => ihArray _ _ p) p

end Readers

end OrderBookServer.JsonParse
