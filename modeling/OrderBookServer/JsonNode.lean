import OrderBookServer.InsideText
import OrderBookServer.ReadBack

/-!
The texts for which the reader of JSON leaves a handle without a node: the container that it reads
is closed at once. A text that is not valid leaves a node that holds a null.
-/
namespace OrderBookServer

namespace Json

variable {δ : Type}

theorem setKey_ne_null (json : Json δ) (key : Text) (value : Json δ) :
    json.setKey key value ≠ .null := by
  cases json with
  | null => exact fun h => nomatch h
  | value v isStringFormat => exact fun h => nomatch h
  | array items => exact fun h => nomatch h
  | object members => exact fun h => nomatch h

theorem setIndex_ne_null (json : Json δ) (index : ℕ) (item : Json δ) :
    json.setIndex index item ≠ .null := by
  cases json with
  | null => exact fun h => nomatch h
  | value v isStringFormat => exact fun h => nomatch h
  | array items => exact fun h => nomatch h
  | object members => exact fun h => nomatch h

end Json

namespace JsonParse

variable {δ : Type} {input : Input} {p start : ℕ}

/-- The first opening bracket of the text is closed by the next character. -/
def startsEmpty (text : Text) : Bool :=
  match text.dropWhile fun c => !(c == '{' || c == '[') with
  | '{' :: c :: _ => c == '}'
  | '[' :: c :: _ => c == ']'
  | _ => false

theorem returns_charAt : Returns (charAt input p) fun c => c = input.byte p := by
  intro s c s' hok
  cases hok
  rfl

section Loops

variable [CharConv δ]

/-- A loop returns no node only where it is left at once. -/
theorem returns_parseObject (fuel : ℕ) (res : Json δ) (p : ℕ) :
    Returns (parseObject input fuel res p) fun r =>
      r.1 = .null → res = .null ∧ input.byte p = '}' := by
  induction fuel generalizing res p with
  | zero =>
    rw [parseObject]
    exact Returns.throw _
  | succ fuel ih =>
    rw [parseObject]
    refine returns_charAt.bind fun c hc => ?_
    by_cases hclose : (c == '}') = true
    · rw [if_pos hclose]
      exact Returns.pure fun hnull => ⟨hnull, hc ▸ beq_iff_eq.mp hclose⟩
    · rw [if_neg hclose]
      refine Returns.after fun key => Returns.after fun value => Returns.after fun exceeded => ?_
      refine Returns.ite (Returns.pure fun hnull => absurd hnull (Json.setKey_ne_null _ _ _)) ?_
      refine Returns.after fun x s r s' hok hnull => ?_
      exact absurd (ih _ _ s r s' hok hnull).1 (Json.setKey_ne_null _ _ _)

theorem returns_parseArray (fuel : ℕ) (res : Json δ) (index p : ℕ) :
    Returns (parseArray input fuel res index p) fun r =>
      r.1 = .null → res = .null ∧ input.byte p = ']' := by
  induction fuel generalizing res index p with
  | zero =>
    rw [parseArray]
    exact Returns.throw _
  | succ fuel ih =>
    rw [parseArray]
    refine returns_charAt.bind fun c hc => ?_
    by_cases hclose : (c == ']') = true
    · rw [if_pos hclose]
      exact Returns.pure fun hnull => ⟨hnull, hc ▸ beq_iff_eq.mp hclose⟩
    · rw [if_neg hclose]
      refine Returns.after fun x => Returns.after fun value => Returns.after fun exceeded => ?_
      refine Returns.ite (Returns.pure fun hnull => absurd hnull (Json.setIndex_ne_null _ _ _)) ?_
      refine Returns.after fun x s r s' hok hnull => ?_
      exact absurd (ih _ _ _ s r s' hok hnull).1 (Json.setIndex_ne_null _ _ _)

end Loops

section FirstBracket

theorem dropWhile_first {f : Char → Bool} (hlt : start < input.size)
    (hfirst : FirstAt (fun i => f (input.byte i)) 0 start) :
    input.text.dropWhile (fun c => !f c) = input.byte start :: input.text.drop (start + 1) := by
  obtain ⟨_, hmet, hpassed⟩ := hfirst
  have hfront : ∀ c ∈ input.text.take start, (!f c) = true := by
    intro c hc
    obtain ⟨j, hj⟩ := List.mem_iff_getElem?.mp hc
    rw [List.getElem?_take] at hj
    split at hj
    · rename_i hlt'
      have hbyte : input.byte j = c := by simp only [Input.byte, hj]
      have hpass : f (input.byte j) = false := hpassed j (Nat.zero_le j) hlt'
      rw [← hbyte, hpass]
      rfl
    · cases hj
  have hlength : start < input.text.length := hlt
  have hbyte : input.byte start = input.text[start] := by
    simp only [Input.byte, List.getElem?_eq_getElem hlength]
  have hmet' : ¬ (!f (input.text[start])) = true := by
    have hstop : f (input.byte start) = true := hmet
    rw [← hbyte, hstop]
    decide
  have hdrop : input.text.dropWhile (fun c => !f c) =
      (input.text.take start ++ input.text.drop start).dropWhile fun c => !f c := by
    rw [List.take_append_drop]
  rw [hdrop, List.dropWhile_append_of_pos hfront, List.drop_eq_getElem_cons hlength,
    List.dropWhile_cons, if_neg hmet', hbyte]

/-- The two characters that `startsEmpty` looks at. -/
theorem startsEmpty_of_first (hlt : start < input.size)
    (hfirst : FirstAt (fun i => input.byte i == '{' || input.byte i == '[') 0 start) :
    startsEmpty input.text = true ↔ input.byte start = '{' ∧ input.byte (start + 1) = '}' ∨
      input.byte start = '[' ∧ input.byte (start + 1) = ']' := by
  have hbracket : input.byte start = '{' ∨ input.byte start = '[' := by
    simpa using hfirst.2.1
  have hrest := dropWhile_first (f := fun c => c == '{' || c == '[') hlt hfirst
  unfold startsEmpty
  rw [hrest]
  cases hdrop : input.text.drop (start + 1) with
  | nil =>
    have hend : start + 1 = input.size := by
      have := List.drop_eq_nil_iff.mp hdrop
      simp only [Input.size] at hlt ⊢
      omega
    rw [hend, byte_size]
    rcases hbracket with hb | hb
    · simp [hb]
    · simp [hb]
  | cons c rest =>
    rw [Input.byte_of_drop hdrop]
    rcases hbracket with hb | hb
    · simp [hb]
    · simp [hb]

theorem startsEmpty_of_none
    (hnone : ∀ j, j < input.size → (input.byte j == '{' || input.byte j == '[') = false) :
    startsEmpty input.text = false := by
  have hdrop : input.text.dropWhile (fun c => !(c == '{' || c == '[')) = [] := by
    rw [List.dropWhile_eq_nil_iff]
    intro c hc
    obtain ⟨j, hj⟩ := List.mem_iff_getElem?.mp hc
    have hbyte : input.byte j = c := by simp only [Input.byte, hj]
    have hpass := hnone j (List.getElem?_eq_some_iff.mp hj).1
    rw [hbyte] at hpass
    rw [hpass]
    rfl
  unfold startsEmpty
  rw [hdrop]

end FirstBracket

section Node

theorem finish_eq_null_iff {r : Json δ × ℕ} {s s' : ParseState} {json : Json δ}
    (h : finish r s = .ok json s') : json = .null ↔ s.isValid = true ∧ r.1 = .null := by
  have hget : (get : Parser ParseState) s = .ok s s := rfl
  rw [finish, bind_ok hget] at h
  by_cases hvalid : s.isValid = true
  · rw [if_pos hvalid] at h
    cases h
    simp [hvalid]
  · rw [if_neg hvalid] at h
    cases h
    simp [hvalid, Json.ofValue]

/-- A container that is read as no node where it `closes` at once, and then keeps the flag. -/
theorem container_eq_null_iff {x : Parser (Json δ × ℕ)} {closes : Prop} {s s' : ParseState}
    {json : Json δ} (hreturns : Returns x fun r => r.1 = .null → closes)
    (hcloses : closes → ∀ r s', x s = .ok r s' → r.1 = .null ∧ s'.isValid = s.isValid)
    (h : (x >>= finish) s = .ok json s') : json = .null ↔ s.isValid = true ∧ closes := by
  cases hx : x s with
  | error e s₁ =>
    rw [bind_error hx] at h
    cases h
  | ok r s₁ =>
    rw [bind_ok hx] at h
    rw [finish_eq_null_iff h]
    constructor
    · rintro ⟨hvalid, hnull⟩
      have hclose := hreturns s r s₁ hx hnull
      exact ⟨(hcloses hclose r s₁ hx).2 ▸ hvalid, hclose⟩
    · rintro ⟨hvalid, hclose⟩
      obtain ⟨hnull, hsame⟩ := hcloses hclose r s₁ hx
      exact ⟨hsame.trans hvalid, hnull⟩

variable [CharConv δ]

theorem object_eq_null_iff {fuel : ℕ} {s s' : ParseState} {json : Json δ}
    (h : (parseObject input fuel .null p >>= finish) s = .ok json s') :
    json = .null ↔ s.isValid = true ∧ input.byte p = '}' := by
  refine container_eq_null_iff (fun s r s' hok hnull => ?_) (fun hbyte r s₁ hok => ?_) h
  · exact (returns_parseObject fuel .null p s r s' hok hnull).2
  · cases fuel with
    | zero =>
      rw [parseObject_zero] at hok
      cases hok
    | succ fuel =>
      obtain ⟨s₂, _, hvalid, _, hclose⟩ := parseObject_close (δ := δ) hbyte .null s
      rw [hclose] at hok
      cases hok
      exact ⟨rfl, hvalid⟩

theorem array_eq_null_iff {fuel : ℕ} {s s' : ParseState} {json : Json δ}
    (h : (parseArray input fuel .null 0 p >>= finish) s = .ok json s') :
    json = .null ↔ s.isValid = true ∧ input.byte p = ']' := by
  refine container_eq_null_iff (fun s r s' hok hnull => ?_) (fun hbyte r s₁ hok => ?_) h
  · exact (returns_parseArray fuel .null 0 p s r s' hok hnull).2
  · cases fuel with
    | zero =>
      rw [parseArray_zero] at hok
      cases hok
    | succ fuel =>
      obtain ⟨s₂, _, hvalid, _, hclose⟩ := parseArray_close (δ := δ) hbyte .null 0 s
      rw [hclose] at hok
      cases hok
      exact ⟨rfl, hvalid⟩

/-- The reader leaves no node exactly where the first container of the text is empty. -/
theorem parse_eq_null_iff {fuel : ℕ} {json : Json δ} {s : ParseState}
    (h : parse input fuel initial = .ok json s) :
    json = .null ↔ startsEmpty input.text = true := by
  by_cases hsize : input.size = 0
  · rw [parse, if_pos hsize] at h
    cases h
    rw [List.length_eq_zero_iff.mp hsize]
    refine iff_of_false (fun h => ?_) (by decide)
    cases h
  rw [parse_eq hsize] at h
  rcases outermost_run (δ := δ) hsize with
    ⟨start, s₁, hstart, hfirst, hvalid, _, houter⟩ | ⟨hnone, s₁, hinvalid, houter⟩
  · rw [startsEmpty_of_first hstart hfirst]
    rw [bind_run_congr (houter fuel)] at h
    have hbracket : input.byte start = '{' ∨ input.byte start = '[' := by
      simpa using hfirst.2.1
    rcases hbracket with hb | hb
    · rw [hb, if_pos (by decide)] at h
      rw [object_eq_null_iff h]
      simp [hb, hvalid]
    · rw [hb, if_neg (by decide)] at h
      rw [array_eq_null_iff h]
      simp [hb, hvalid]
  · rw [bind_run_congr (houter fuel)] at h
    rw [startsEmpty_of_none hnone, array_eq_null_iff h, hinvalid]
    simp

/-- Behind a text without a bracket no value is read, whatever is there. -/
theorem parseArray_behind {fuel : ℕ} {s : ParseState} (hp : input.size ≤ p)
    (hinvalid : s.isValid = false) : ∃ r s', s'.isValid = false ∧
      (parseArray input (fuel + 2) .null 0 p : Parser (Json δ × ℕ)) s = .ok r s' := by
  by_cases hbyte : input.byte p = ']'
  · obtain ⟨s₁, _, hvalid, _, hclose⟩ := parseArray_close (δ := δ) hbyte .null 0 s
    exact ⟨_, s₁, hvalid.trans hinvalid, hclose (fuel + 1)⟩
  · obtain ⟨s₁, _, _, hvalid, _, hturn⟩ := parseArray_turn (δ := δ) hbyte .null 0 s
    obtain ⟨q, s₂, _, _, hle, _, hend⟩ := parseValueWith_run (δ := δ) input p s₁
    obtain ⟨q', hbehind, hvalue⟩ : ∃ q', input.size ≤ q' ∧
        (parseValue input (fuel + 1) p : Parser (Json δ × ℕ)) s₁ = .ok (.null, q') s₂ := by
      rw [parseValue_succ]
      rcases hend with ⟨_, _, hsame, hrun⟩ | ⟨_, _, hrun⟩
      · rw [hrun, valueTail_invalid (hsame.trans (hvalid.trans hinvalid))]
        refine ⟨_, ?_, rfl⟩
        split
        · exact Nat.le_trans hp hle
        · exact hp
      · exact ⟨p, hp, hrun _ _⟩
    refine ⟨(Json.setIndex .null 0 .null, q' + 1), { s₂ with isValid := false }, rfl, ?_⟩
    rw [hturn, hvalue, turnResult, if_pos hbehind]

/-- A text without a bracket is read as a null. -/
theorem parse_of_noBracket (hbrace : '{' ∉ input.text) (hsquare : '[' ∉ input.text) (fuel : ℕ) :
    ∃ s, parse input (fuel + 2) initial = .ok (.ofValue .null : Json δ) s := by
  by_cases hsize : input.size = 0
  · exact ⟨initial, by rw [parse, if_pos hsize]; rfl⟩
  rcases outermost_run (δ := δ) hsize with ⟨start, _, hstart, hfirst, _⟩ | ⟨_, s, hinvalid, houter⟩
  · have hlt : start < input.text.length := hstart
    have hbyte : input.byte start = input.text[start] := by
      simp only [Input.byte, List.getElem?_eq_getElem hlt]
    have hbracket : input.byte start = '{' ∨ input.byte start = '[' := by simpa using hfirst.2.1
    have hmem := List.getElem_mem hlt
    rw [← hbyte] at hmem
    rcases hbracket with heq | heq
    · exact absurd (heq ▸ hmem) hbrace
    · exact absurd (heq ▸ hmem) hsquare
  · obtain ⟨r, s', hinvalid', hrun⟩ : ∃ r s', s'.isValid = false ∧
        (parseArray input (fuel + 2) .null 0 (input.size + 1) : Parser (Json δ × ℕ)) s =
          .ok r s' := parseArray_behind (Nat.le_succ input.size) hinvalid
    have hget : (get : Parser ParseState) s' = .ok s' s' := rfl
    refine ⟨s', ?_⟩
    rw [parse_eq hsize, bind_run_congr (houter _), bind_ok hrun, finish, bind_ok hget,
      if_neg (by simp [hinvalid'])]
    rfl

end Node

end JsonParse

end OrderBookServer
