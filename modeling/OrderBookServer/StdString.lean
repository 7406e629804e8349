import OrderBookServer.Decimal
import OrderBookServer.Occurrences

/-!
Strings with positions of 64 bits, of which the greatest says that nothing was found. A position
that is kept in an `int` loses all but its low 32 bits. Calls may throw, and loops that need not
end take a number of turns.
-/
namespace OrderBookServer.StdString

open Occurrences

/-- The end of a call that returns nothing. -/
inductive Failure
  | outOfRange
  | invalidArgument
  | outOfFuel
deriving DecidableEq, Repr

def npos : ℕ := 18446744073709551615

/-- A number as a `size_t`. -/
def sizeT (x : ℤ) : ℕ := (x % 18446744073709551616).toNat

/-- A number as an `int`. -/
def toInt (x : ℤ) : ℤ := (x + 2147483648) % 4294967296 - 2147483648

def find (str del : Text) (pos : ℕ) : ℕ :=
  if pos ≤ str.length then
    match indexOf del (str.drop pos) with
    | some i => pos + i
    | none => npos
  else npos

def findFirstOf (str chars : Text) (pos : ℕ) : ℕ :=
  if pos ≤ str.length then
    match (str.drop pos).findIdx? fun c => c ∈ chars with
    | some i => pos + i
    | none => npos
  else npos

def substr (str : Text) (pos count : ℕ) : Except Failure Text :=
  if pos ≤ str.length then .ok ((str.drop pos).take count) else .error .outOfRange

def isSpace (c : Char) : Bool := c = ' ' || ('\t' ≤ c && c ≤ '\r')

/-- `strtol`, before any check of the range. -/
def strtol (str : Text) : Option ℤ :=
  match str.dropWhile isSpace with
  | '+' :: digits => (Decimal.natFromChars digits).map fun n : ℕ => (n : ℤ)
  | digits => Decimal.fromChars digits

def stoi (str : Text) : Except Failure ℤ :=
  match strtol str with
  | none => .error .invalidArgument
  | some x => if -2147483648 ≤ x ∧ x ≤ 2147483647 then .ok x else .error .outOfRange

/-- A number in decimal digits. -/
def IsNumeral (text : Text) (n : ℕ) : Prop :=
  text ≠ [] ∧ (∀ c ∈ text, c.isDigit) ∧ Nat.ofDigitChars 10 text 0 = n

section Positions

variable {str del chars : Text} {pos i : ℕ} {x : ℤ}

theorem sizeT_of_lt (h0 : 0 ≤ x) (h : x < 18446744073709551616) : (sizeT x : ℤ) = x := by
  unfold sizeT
  omega

theorem toInt_of_lt (h0 : -2147483648 ≤ x) (h : x < 2147483648) : toInt x = x := by
  unfold toInt
  omega

theorem sizeT_natCast {n : ℕ} (h : n < 18446744073709551616) : sizeT n = n := by
  unfold sizeT
  omega

theorem toInt_natCast {n : ℕ} (h : n < 2147483648) : toInt n = n := by
  unfold toInt
  omega

/-- The distance of two positions as a count. -/
theorem sizeT_toInt_sub {m n : ℕ} (h : n < 2147483648) :
    sizeT (toInt (((m + n : ℕ) : ℤ) - m)) = n := by
  unfold toInt sizeT
  omega

@[simp] theorem toInt_npos : toInt npos = -1 := rfl

theorem find_of_some (hpos : pos ≤ str.length) (h : indexOf del (str.drop pos) = some i) :
    find str del pos = pos + i := by
  simp only [find, if_pos hpos, h]

theorem find_of_none (h : indexOf del (str.drop pos) = none) : find str del pos = npos := by
  simp only [find, h, ite_self]

theorem find_of_lt (h : str.length < pos) : find str del pos = npos := by
  have hnot : ¬ pos ≤ str.length := by omega
  simp only [find, if_neg hnot]

/-- What is found ends inside the text. -/
theorem add_length_le_of_find (hpos : pos ≤ str.length)
    (h : indexOf del (str.drop pos) = some i) : pos + i + del.length ≤ str.length := by
  have hle := add_length_le_of_indexOf h
  rw [List.length_drop] at hle
  omega

/-- Nothing is found, or the first occurrence from a position on. -/
theorem find_cases (str del : Text) (pos : ℕ) : find str del pos = npos ∨
    pos ≤ find str del pos ∧ find str del pos + del.length ≤ str.length ∧
      del <+: str.drop (find str del pos) ∧
      ∀ j, pos ≤ j → j < find str del pos → ¬ del <+: str.drop j := by
  by_cases hpos : pos ≤ str.length
  · cases hindex : indexOf del (str.drop pos) with
    | none => exact Or.inl (find_of_none hindex)
    | some i =>
      have hend := add_length_le_of_find hpos hindex
      obtain ⟨_, hat, hfirst⟩ := indexOf_eq_some_iff.mp hindex
      rw [List.drop_drop] at hat
      rw [find_of_some hpos hindex]
      refine Or.inr ⟨Nat.le_add_right pos i, hend, hat, fun j hj hlt => ?_⟩
      have hnot := hfirst (j - pos) (by omega)
      rwa [List.drop_drop, Nat.add_sub_cancel' hj] at hnot
  · exact Or.inl (find_of_lt (by omega))

theorem toInt_range (x : ℤ) : -2147483648 ≤ toInt x ∧ toInt x < 2147483648 := by
  unfold toInt
  omega

theorem findFirstOf_of_some (hpos : pos ≤ str.length)
    (h : ((str.drop pos).findIdx? fun c => c ∈ chars) = some i) :
    findFirstOf str chars pos = pos + i := by
  simp only [findFirstOf, if_pos hpos, h]

theorem findFirstOf_of_none (h : ((str.drop pos).findIdx? fun c => c ∈ chars) = none) :
    findFirstOf str chars pos = npos := by
  simp only [findFirstOf, h, ite_self]

/-- The first of some characters is behind a piece without any. -/
theorem findIdx?_append_of_notMem {a : Text} (b : Text) {d : Char} (ha : ∀ c ∈ a, c ∉ chars)
    (hd : d ∈ chars) : ((a ++ d :: b).findIdx? fun c => c ∈ chars) = some a.length := by
  have hnone : (a.findIdx? fun c => c ∈ chars) = none := by
    rw [List.findIdx?_eq_none_iff]
    exact fun c hc => decide_eq_false (ha c hc)
  rw [List.findIdx?_append, hnone, List.findIdx?_cons]
  simp [hd]

theorem substr_of_le (h : pos ≤ str.length) (count : ℕ) :
    substr str pos count = .ok ((str.drop pos).take count) := if_pos h

theorem substr_of_lt (h : str.length < pos) (count : ℕ) :
    substr str pos count = .error .outOfRange := if_neg (by omega)

/-- A count that reaches the end takes all the rest. -/
theorem substr_rest (h : pos ≤ str.length) {count : ℕ} (hcount : str.length ≤ pos + count) :
    substr str pos count = .ok (str.drop pos) := by
  rw [substr_of_le h, List.take_of_length_le]
  rw [List.length_drop]
  omega

theorem strtol_of_numeral {n : ℕ} (h : IsNumeral str n) : strtol str = some (n : ℤ) := by
  obtain ⟨hne, hdigits, hvalue⟩ := h
  obtain ⟨c, rest, rfl⟩ := List.exists_cons_of_ne_nil hne
  have hdigit : c.isDigit := hdigits c (List.mem_cons_self ..)
  have hplus : c ≠ '+' := fun heq => by simp [heq] at hdigit
  have hminus : c ≠ '-' := fun heq => by simp [heq] at hdigit
  have hblank : c ≠ ' ' := fun heq => by simp [heq] at hdigit
  have hspace : isSpace c = false := by
    have hrange : 48 ≤ c.toNat ∧ c.toNat ≤ 57 := by
      simpa [Char.isDigit, UInt32.le_iff_toNat_le] using hdigit
    have hcontrol : 9 ≤ c.toNat → 13 < c.toNat := by omega
    simpa [isSpace, hblank, Char.le_def, UInt32.le_iff_toNat_le] using hcontrol
  have hread : Decimal.natFromChars (c :: rest) = some n := by
    have htake : (c :: rest).takeWhile Char.isDigit = c :: rest :=
      List.takeWhile_eq_self_iff.mpr hdigits
    simp [Decimal.natFromChars, htake, hvalue]
  have hdrop : (c :: rest).dropWhile isSpace = c :: rest := by simp [List.dropWhile, hspace]
  have hfrom : Decimal.fromChars (c :: rest) =
      (Decimal.natFromChars (c :: rest)).map fun n : ℕ => (n : ℤ) := by
    unfold Decimal.fromChars
    split
    · rename_i digits heq
      exact absurd (List.cons.inj heq).1 hminus
    · rfl
  unfold strtol
  rw [hdrop]
  split
  · rename_i digits heq
    exact absurd (List.cons.inj heq).1 hplus
  · rw [hfrom, hread, Option.map_some]

theorem length_le_of_substr {count : ℕ} {res : Text} (h : substr str pos count = .ok res) :
    res.length ≤ str.length := by
  unfold substr at h
  split at h
  · obtain rfl := Except.ok.inj h
    rw [List.length_take, List.length_drop]
    omega
  · cases h

theorem stoi_ok_iff : stoi str = .ok x ↔
    strtol str = some x ∧ -2147483648 ≤ x ∧ x ≤ 2147483647 := by
  unfold stoi
  cases hread : strtol str with
  | none => simp
  | some y =>
    simp only [Option.some.injEq]
    constructor
    · intro h
      split at h
      · rename_i hrange
        obtain rfl := Except.ok.inj h
        exact ⟨rfl, hrange⟩
      · cases h
    · rintro ⟨rfl, hrange⟩
      rw [if_pos hrange]

end Positions

section Turns

variable {α β : Type}

/-- With enough turns a call returns. -/
def Returns (x : ℕ → Except Failure α) (a : α) : Prop := ∃ n, ∀ turns, n ≤ turns → x turns = .ok a

variable {x : ℕ → Except Failure α} {f : α → ℕ → Except Failure β} {a a' : α} {b : β}

@[simp] theorem ok_bind (g : α → Except Failure β) : (Except.ok a >>= g) = g a := by
  simp only [bind, Except.bind]

@[simp] theorem error_bind (e : Failure) (g : α → Except Failure β) :
    (Except.error e >>= g) = .error e := by
  simp only [bind, Except.bind]

/-- What returns has returned at each of its calls. -/
theorem bind_eq_ok {y : Except Failure α} {g : α → Except Failure β} (h : y >>= g = .ok b) :
    ∃ a, y = .ok a ∧ g a = .ok b := by
  cases y with
  | ok a => exact ⟨a, rfl, by rwa [ok_bind] at h⟩
  | error e => cases h

theorem Returns.pure (a : α) : Returns (fun _ => .ok a) a := ⟨0, fun _ _ => rfl⟩

theorem Returns.bind (hx : Returns x a) (hf : Returns (f a) b) :
    Returns (fun turns => x turns >>= fun a => f a turns) b := by
  obtain ⟨n, hn⟩ := hx
  obtain ⟨m, hm⟩ := hf
  refine ⟨max n m, fun turns hturns => ?_⟩
  have hx := hn turns (by omega)
  have hf := hm turns (by omega)
  simp only [hx]
  exact hf

theorem Returns.unique (h : Returns x a) (h' : Returns x a') : a = a' := by
  obtain ⟨n, hn⟩ := h
  obtain ⟨m, hm⟩ := h'
  have heq := (hn (max n m) (by omega)).symm.trans (hm (max n m) (by omega))
  exact Except.ok.inj heq

/-- A call that returns does so from some number of turns on. -/
theorem Returns.exists_ok (h : Returns x a) : ∃ turns, x turns = .ok a := by
  obtain ⟨n, hn⟩ := h
  exact ⟨n, hn n (Nat.le_refl n)⟩

/-- With few turns the same as with many, unless they do not suffice. -/
def Refines (few many : Except Failure α) : Prop := few = .error .outOfFuel ∨ many = few

theorem Refines.refl (y : Except Failure α) : Refines y y := Or.inr rfl

theorem Refines.bind {y y' : Except Failure α} {g g' : α → Except Failure β} (h : Refines y y')
    (hg : ∀ a, Refines (g a) (g' a)) : Refines (y >>= g) (y' >>= g') := by
  rcases h with rfl | rfl
  · exact Or.inl (error_bind _ _)
  · cases y' with
    | ok a =>
      rw [ok_bind, ok_bind]
      exact hg a
    | error e =>
      rw [error_bind, error_bind]
      exact Refines.refl _

/-- A call that returns does not end otherwise with fewer turns. -/
theorem Returns.eq_of_refines (h : Returns x a)
    (hx : ∀ few many, few ≤ many → Refines (x few) (x many)) (turns : ℕ) :
    x turns = .error .outOfFuel ∨ x turns = .ok a := by
  obtain ⟨n, hn⟩ := h
  rcases hx turns (max n turns) (by omega) with hfuel | heq
  · exact Or.inl hfuel
  · exact Or.inr (heq.symm.trans (hn _ (by omega)))

end Turns

end OrderBookServer.StdString
