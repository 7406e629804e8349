import OrderBookServer.HttpReading

/-!
The stages that read the body. The loop over form data goes from one frame to the next and reads
behind the next key of a form; it is not left where the frame is empty, and it throws where the
text ends in the words in front of a key.
-/
namespace OrderBookServer.HttpRequest

open StdString Occurrences

variable {δ : Type} {content body frame : Text} {turns s j : ℕ} {json : Json δ}

/-- The body: what is behind the blank line, or behind the third character without one. -/
def bodyOf (content : Text) : Text :=
  match indexOf (crlf ++ crlf) content with
  | some i => content.drop (i + 4)
  | none => content.drop 3

theorem deserializeBody_eq (hsize : content.length < 9223372036854775808)
    (hthree : 3 ≤ content.length) :
    deserializeBody content = .ok (bodyOf content) := by
  have hdrop : content.drop 0 = content := List.drop_zero
  unfold deserializeBody bodyOf
  cases hfind : indexOf (crlf ++ crlf) content with
  | none =>
    rw [find_of_none (by rw [hdrop, hfind])]
    have hat : sizeT ((npos : ℤ) + 4) = 3 := rfl
    simp only [hat]
    apply substr_rest hthree
    unfold sizeT
    omega
  | some i =>
    have hend := add_length_le_of_indexOf hfind
    have hfour : (crlf ++ crlf).length = 4 := rfl
    rw [find_of_some (Nat.zero_le _) (by rw [hdrop, hfind]), Nat.zero_add]
    have hat : sizeT ((i : ℤ) + 4) = i + 4 := by
      unfold sizeT
      omega
    simp only [hat]
    apply substr_rest (by omega)
    unfold sizeT
    omega

section FormData

/-- The next occurrence of a frame behind the one at `s`. -/
def nextFrame (body frame : Text) (s : ℕ) : Option ℕ :=
  if s + frame.length ≤ body.length then
    (indexOf frame (body.drop (s + frame.length))).map (s + frame.length + ·)
  else none

/-- The positions from which the loop looks for a key. -/
inductive FrameStart (body frame : Text) : ℕ → Prop
  | first : FrameStart body frame 0
  | next {s s' : ℕ} (h : FrameStart body frame s) (hnext : nextFrame body frame s = some s') :
    FrameStart body frame s'

/-- Form data does not begin with the words in front of a key, and behind no frame are these
words the last of the text. -/
def FormReads (body : Text) : Prop :=
  ∀ i, indexOf keyFormat body = some i → 0 < i ∧ ∀ s, FrameStart body (body.take i) s →
    ∀ j, indexOf keyFormat (body.drop s) = some j → s + j + keyFormat.length < body.length

theorem nextFrame_le {s' : ℕ} (h : nextFrame body frame s = some s') :
    s + frame.length ≤ s' ∧ s' ≤ body.length := by
  unfold nextFrame at h
  split at h
  · rename_i hle
    obtain ⟨k, hk, rfl⟩ := Option.map_eq_some_iff.mp h
    have hend := add_length_le_of_find hle hk
    constructor
    · omega
    · omega
  · cases h

theorem FrameStart.le (h : FrameStart body frame s) : s ≤ body.length := by
  cases h with
  | first => exact Nat.zero_le _
  | next _ hnext => exact (nextFrame_le hnext).2

/-- Where the loop goes on, as it keeps it. -/
theorem toInt_find_frame (hsize : body.length < 2147483648) (hs : s ≤ body.length)
    (hframe : frame.length ≤ body.length) :
    toInt (find body frame (sizeT (s + frame.length))) =
      match nextFrame body frame s with
      | some s' => (s' : ℤ)
      | none => -1 := by
  have hat : sizeT ((s : ℤ) + frame.length) = s + frame.length := by
    unfold sizeT
    omega
  rw [hat]
  unfold nextFrame
  by_cases hle : s + frame.length ≤ body.length
  · cases hfind : indexOf frame (body.drop (s + frame.length)) with
    | none =>
      rw [find_of_none hfind, if_pos hle]
      rfl
    | some k =>
      have hend := add_length_le_of_find hle hfind
      rw [find_of_some hle hfind, if_pos hle]
      exact toInt_of_lt (by omega) (by omega)
  · rw [find_of_lt (by omega), if_neg hle]
    rfl

theorem formDataFrom_of_none (hsize : body.length < 2147483648) (hs : s ≤ body.length)
    (hkey : indexOf keyFormat (body.drop s) = none) :
    formDataFrom body frame (turns + 1) s json = .ok json := by
  have hat : sizeT (s : ℤ) = s := by
    unfold sizeT
    omega
  unfold formDataFrom
  simp only [hat, find_of_none hkey, toInt_npos]
  rfl

theorem formDataFrom_of_neg (hsize : body.length < 2147483648) :
    formDataFrom body frame (turns + 1) (-1) json = .ok json := by
  have hat : body.length < sizeT (-1) := by
    unfold sizeT
    omega
  unfold formDataFrom
  simp only [find_of_lt hat, toInt_npos]
  rfl

/-- The value of a key is looked for inside the text, found or not. -/
theorem valueStart_le (hsize : body.length < 2147483648) (hthree : 3 ≤ body.length) (pos : ℕ) :
    sizeT (toInt (find body (crlf ++ crlf) pos + 4)) ≤ body.length := by
  have hnone : sizeT (toInt ((npos : ℤ) + 4)) = 3 := rfl
  by_cases hpos : pos ≤ body.length
  · cases hfind : indexOf (crlf ++ crlf) (body.drop pos) with
    | none =>
      rw [find_of_none hfind, hnone]
      exact hthree
    | some k =>
      have hend := add_length_le_of_find hpos hfind
      have hfour : (crlf ++ crlf).length = 4 := rfl
      rw [find_of_some hpos hfind]
      unfold sizeT toInt
      omega
  · rw [find_of_lt (by omega), hnone]
    exact hthree

/-- A turn reads the next key, unless the text ends in the words in front of it. -/
theorem formDataFrom_of_some (frame : Text) (json : Json δ) (hsize : body.length < 2147483648)
    (hs : s ≤ body.length) (hkey : indexOf keyFormat (body.drop s) = some j) :
    (s + j + keyFormat.length < body.length → ∃ json', ∀ turns,
      formDataFrom body frame (turns + 1) s json =
        formDataFrom body frame turns (toInt (find body frame (sizeT (s + frame.length)))) json') ∧
    (¬ s + j + keyFormat.length < body.length → ∀ turns,
      formDataFrom body frame (turns + 1) s json = .error .outOfRange) := by
  have hend := add_length_le_of_find hs hkey
  have hlength : keyFormat.length = 37 := rfl
  have hat : sizeT (s : ℤ) = s := by
    unfold sizeT
    omega
  have hstart : toInt (s + j : ℕ) = (s + j : ℕ) := toInt_of_lt (by omega) (by omega)
  have hfound : -1 < ((s + j : ℕ) : ℤ) := by omega
  constructor
  · intro hlt
    have hnext : sizeT (toInt ((s + j : ℕ) + (keyFormat.length + 1))) = s + j + 38 := by
      unfold sizeT toInt
      omega
    have hthree : 3 ≤ body.length := by omega
    have hinside : s + j + 38 ≤ body.length := by omega
    refine ⟨?json', fun turns => ?turn⟩
    case turn =>
      conv in formDataFrom body frame (turns + 1) s json => unfold formDataFrom
      simp only [hat, find_of_some hs hkey, hstart, hfound, if_true, hnext,
        substr_of_le hinside, ok_bind, substr_of_le (valueStart_le hsize hthree _)]
      exact rfl
  · intro hnot turns
    have hbehind :
        body.length < sizeT (toInt ((s + j : ℕ) + (keyFormat.length + 1))) := by
      unfold sizeT toInt
      omega
    unfold formDataFrom
    simp only [hat, find_of_some hs hkey, hstart, hfound, if_true, substr_of_lt hbehind,
      error_bind]

/-- Frames of at least one character bring the loop to its end. -/
theorem formDataFrom_ok (hsize : body.length < 2147483648) (hpos : 0 < frame.length)
    (hframe : frame.length ≤ body.length)
    (hreads : ∀ s, FrameStart body frame s → ∀ j, indexOf keyFormat (body.drop s) = some j →
      s + j + keyFormat.length < body.length) {n : ℕ} (hs : FrameStart body frame s)
    (hn : body.length - s + 1 < n) :
    ∃ json', ∀ turns, n ≤ turns → formDataFrom body frame turns s json = .ok json' := by
  induction n generalizing s json with
  | zero => omega
  | succ n ih =>
    have hle := hs.le
    cases hkey : indexOf keyFormat (body.drop s) with
    | none =>
      refine ⟨json, fun turns hturns => ?_⟩
      obtain ⟨turns, rfl⟩ : ∃ rest, turns = rest + 1 := ⟨turns - 1, by omega⟩
      exact formDataFrom_of_none hsize hle hkey
    | some j =>
      obtain ⟨json', hturn⟩ := (formDataFrom_of_some frame json hsize hle hkey).1
        (hreads s hs j hkey)
      rw [toInt_find_frame hsize hle hframe] at hturn
      cases hnext : nextFrame body frame s with
      | none =>
        refine ⟨json', fun turns hturns => ?_⟩
        obtain ⟨turns, rfl⟩ : ∃ rest, turns = rest + 1 + 1 := ⟨turns - 2, by omega⟩
        rw [hturn, hnext]
        exact formDataFrom_of_neg hsize
      | some s' =>
        obtain ⟨hfar, hinside⟩ := nextFrame_le hnext
        have hfuel : body.length - s' + 1 < n := by omega
        obtain ⟨res, hres⟩ : ∃ res, ∀ turns, n ≤ turns →
            formDataFrom body frame turns s' json' = .ok res := ih (.next hs hnext) hfuel
        refine ⟨res, fun turns hturns => ?_⟩
        obtain ⟨turns, rfl⟩ : ∃ rest, turns = rest + 1 := ⟨turns - 1, by omega⟩
        rw [hturn, hnext]
        exact hres turns (by omega)

/-- A loop that ends was at each of its starts, or found no key behind one. -/
theorem formDataFrom_visits (hsize : body.length < 2147483648)
    (hframe : frame.length ≤ body.length) {res : Json δ}
    (hok : formDataFrom body frame turns 0 json = .ok res) (hs : FrameStart body frame s) :
    (∃ turns json, formDataFrom body frame turns s json = .ok res) ∨
      indexOf keyFormat (body.drop s) = none := by
  induction hs with
  | first => exact Or.inl ⟨turns, json, hok⟩
  | next hs hnext ih =>
    rename_i s s'
    have hle := hs.le
    obtain ⟨hfar, hinside⟩ := nextFrame_le hnext
    cases hkey : indexOf keyFormat (body.drop s) with
    | none =>
      apply Or.inr
      apply indexOf_eq_none_iff.mpr
      intro k hk hat
      rw [List.length_drop] at hk
      rw [List.drop_drop] at hat
      have hnone := indexOf_eq_none_iff.mp hkey (s' - s + k)
      rw [List.length_drop, List.drop_drop] at hnone
      apply hnone (by omega)
      have heq : s + (s' - s + k) = s' + k := by omega
      rw [heq]
      exact hat
    | some j =>
      obtain ⟨turns, json, hrun⟩ : ∃ turns json, formDataFrom body frame turns s json = .ok res :=
        ih.resolve_right (by simp [hkey])
      cases turns with
      | zero => cases hrun
      | succ turns =>
        obtain ⟨hgoes, hthrows⟩ := formDataFrom_of_some frame json hsize hle hkey
        by_cases hlt : s + j + keyFormat.length < body.length
        · obtain ⟨json', hturn⟩ := hgoes hlt
          rw [hturn, toInt_find_frame hsize hle hframe, hnext] at hrun
          exact Or.inl ⟨turns, json', hrun⟩
        · rw [hthrows hlt turns] at hrun
          cases hrun

/-- With an empty frame the loop stays where it is. -/
theorem formDataFrom_nil_ne (hsize : body.length < 2147483648)
    (hkey : indexOf keyFormat body = some j) (res : Json δ) :
    formDataFrom body [] turns 0 json ≠ .ok res := by
  have hdrop : body.drop 0 = body := List.drop_zero
  induction turns generalizing json with
  | zero => exact fun h => nomatch h
  | succ turns ih =>
    intro hok
    rw [← hdrop] at hkey
    obtain ⟨hgoes, hthrows⟩ := formDataFrom_of_some [] json hsize (Nat.zero_le _) hkey
    by_cases hlt : 0 + j + keyFormat.length < body.length
    · obtain ⟨json', hturn⟩ := hgoes hlt
      have hstay : toInt (find body [] (sizeT ((0 : ℕ) + ([] : Text).length))) = 0 := by
        have hnil : indexOf [] (body.drop 0) = some 0 :=
          indexOf_eq_some_iff.mpr ⟨Nat.zero_le _, List.nil_prefix, by simp⟩
        have hzero : sizeT (((0 : ℕ) : ℤ) + ([] : Text).length) = 0 := rfl
        rw [hzero, find_of_some (Nat.zero_le _) hnil]
        rfl
      have hrun := (hturn turns).symm.trans hok
      rw [hstay] at hrun
      exact ih hrun
    · exact nomatch (hthrows hlt turns).symm.trans hok

/-- The stage enters the loop with what is in front of the first key as the frame. -/
theorem deserializeBodyFormData_eq (hsize : body.length < 2147483648) :
    deserializeBodyFormData turns body json = match indexOf keyFormat body with
      | some i => formDataFrom body (body.take i) turns 0 json
      | none => .ok json := by
  have hdrop : body.drop 0 = body := List.drop_zero
  unfold deserializeBodyFormData
  cases hfind : indexOf keyFormat body with
  | none =>
    rw [find_of_none (by rw [hdrop, hfind])]
    rfl
  | some i =>
    have hend := add_length_le_of_indexOf hfind
    rw [find_of_some (Nat.zero_le _) (by rw [hdrop, hfind]), Nat.zero_add]
    have hint : toInt i = i := toInt_of_lt (by omega) (by omega)
    have hfound : -1 < (i : ℤ) := by omega
    have hat : sizeT (i : ℤ) = i := by
      unfold sizeT
      omega
    simp only [hint, hfound, if_true, hat, substr_of_le (Nat.zero_le _), List.drop_zero, ok_bind]

theorem formData_returns (hsize : body.length < 2147483648) (hreads : FormReads body)
    (json : Json δ) :
    ∃ res, Returns (fun turns => deserializeBodyFormData turns body json) res := by
  simp only [deserializeBodyFormData_eq hsize]
  cases hfind : indexOf keyFormat body with
  | none => exact ⟨json, Returns.pure json⟩
  | some i =>
    obtain ⟨hpos, hstarts⟩ := hreads i hfind
    have hend := add_length_le_of_indexOf hfind
    have hlength : (body.take i).length = i := List.length_take_of_le (by omega)
    have hfuel : body.length - 0 + 1 < body.length + 2 := by omega
    obtain ⟨res, hres⟩ : ∃ res, ∀ turns, body.length + 2 ≤ turns →
        formDataFrom body (body.take i) turns 0 json = .ok res :=
      formDataFrom_ok hsize (by omega) (by omega) hstarts .first hfuel
    exact ⟨res, body.length + 2, hres⟩

theorem formReads_of_ok (hsize : body.length < 2147483648) {res : Json δ}
    (hok : deserializeBodyFormData turns body json = .ok res) : FormReads body := by
  intro i hfind
  rw [deserializeBodyFormData_eq hsize] at hok
  simp only [hfind] at hok
  have hend := add_length_le_of_indexOf hfind
  have hframe : (body.take i).length ≤ body.length := by
    rw [List.length_take]
    omega
  constructor
  · by_contra hzero
    obtain rfl : i = 0 := by omega
    exact formDataFrom_nil_ne hsize hfind res hok
  · intro s hs j hkey
    by_contra hlast
    obtain ⟨turns, json, hrun⟩ : ∃ turns json,
        formDataFrom body (body.take i) turns s json = .ok res :=
      (formDataFrom_visits hsize hframe hok hs).resolve_right (by simp [hkey])
    cases turns with
    | zero => cases hrun
    | succ turns =>
      obtain ⟨_, hthrows⟩ := formDataFrom_of_some (body.take i) json hsize hs.le hkey
      rw [hthrows hlast turns] at hrun
      cases hrun

end FormData

section RawData

variable {items : List Text}

theorem rawDataFrom_returns (hitems : ∀ item ∈ items, item.length < 2147483648)
    (json : Json δ) : ∃ res, Returns (fun turns => rawDataFrom turns items json) res := by
  induction items generalizing json with
  | nil => exact ⟨json, Returns.pure json⟩
  | cons item items ih =>
    have htail := fun i hi => hitems i (List.mem_cons_of_mem item hi)
    have hsize := hitems item (List.mem_cons_self ..)
    have hsplit : Returns (fun turns => splitString turns item ['=']) (splitOn ['='] item) :=
      ⟨item.length + 1, fun turns hturns => splitString_eq (List.cons_ne_nil _ _) hsize hturns⟩
    unfold rawDataFrom
    rcases hpieces : splitOn ['='] item with _ | ⟨key, _ | ⟨value, rest⟩⟩
    · rw [hpieces] at hsplit
      obtain ⟨res, hres⟩ := ih htail json
      exact ⟨res, hsplit.bind hres⟩
    · rw [hpieces] at hsplit
      obtain ⟨res, hres⟩ := ih htail json
      exact ⟨res, hsplit.bind hres⟩
    · rw [hpieces] at hsplit
      obtain ⟨res, hres⟩ := ih htail (json.setKey key (.ofValue (.string value)))
      exact ⟨res, hsplit.bind hres⟩

theorem rawData_returns (hsize : body.length < 2147483648) (json : Json δ) :
    ∃ res, Returns (fun turns => deserializeBodyRawData turns body json) res := by
  unfold deserializeBodyRawData
  split
  · have hsplit : Returns (fun turns => splitString turns body ['&']) (splitOn ['&'] body) :=
      ⟨body.length + 1, fun turns hturns => splitString_eq (List.cons_ne_nil _ _) hsize hturns⟩
    have hitems : ∀ item ∈ splitOn ['&'] body, item.length < 2147483648 :=
      fun item hitem => Nat.lt_of_le_of_lt (length_le_of_mem_splitOn hitem) hsize
    obtain ⟨res, hres⟩ := rawDataFrom_returns hitems json
    exact ⟨res, hsplit.bind hres⟩
  · exact ⟨json, Returns.pure json⟩

end RawData

end OrderBookServer.HttpRequest
