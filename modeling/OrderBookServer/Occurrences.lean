import Mathlib.Data.List.Infix
import Mathlib.Data.List.TakeWhile
import Mathlib.Data.Nat.Notation

/-!
Occurrences of one list in another: the first one, and the pieces between them. Positions count
from the front. A delimiter whose first element is not in a piece first occurs behind the piece.
-/
namespace OrderBookServer.Occurrences

variable {α : Type} [DecidableEq α]

/-- The position of the first occurrence of `del`. -/
def indexOf (del : List α) : List α → Option ℕ
  | [] => if del = [] then some 0 else none
  | x :: s => if del <+: x :: s then some 0 else (indexOf del s).map (· + 1)

variable {del s a b : List α} {d : α} {i j : ℕ}

theorem indexOf_eq_some_iff : indexOf del s = some i ↔
    i ≤ s.length ∧ del <+: s.drop i ∧ ∀ j < i, ¬ del <+: s.drop j := by
  induction s generalizing i with
  | nil =>
    unfold indexOf
    by_cases hdel : del = []
    · simp only [if_pos hdel, Option.some.injEq, List.length_nil, Nat.le_zero]
      constructor
      · rintro rfl
        simp [hdel]
      · exact fun h => h.1.symm
    · simp [hdel]
  | cons x s ih =>
    unfold indexOf
    by_cases hhere : del <+: x :: s
    · rw [if_pos hhere]
      constructor
      · intro h
        obtain rfl := Option.some.inj h
        exact ⟨Nat.zero_le _, hhere, fun j hj => absurd hj (Nat.not_lt_zero j)⟩
      · rintro ⟨_, _, hfirst⟩
        by_contra hne
        have hpos : 0 < i := Nat.pos_of_ne_zero fun hzero => hne (by rw [hzero])
        exact hfirst 0 hpos hhere
    · rw [if_neg hhere]
      cases i with
      | zero => simp [hhere]
      | succ i =>
        rw [Option.map_eq_some_iff]
        constructor
        · rintro ⟨k, hk, heq⟩
          obtain rfl : k = i := by omega
          obtain ⟨hle, hat, hfirst⟩ := ih.mp hk
          refine ⟨Nat.succ_le_succ hle, hat, fun j hj => ?_⟩
          cases j with
          | zero => exact hhere
          | succ j => exact hfirst j (by omega)
        · rintro ⟨hle, hat, hfirst⟩
          refine ⟨i, ih.mpr ⟨Nat.le_of_succ_le_succ hle, hat, fun j hj => ?_⟩, rfl⟩
          exact hfirst (j + 1) (by omega)

theorem indexOf_eq_none_iff : indexOf del s = none ↔ ∀ i ≤ s.length, ¬ del <+: s.drop i := by
  constructor
  · intro hnone
    induction s with
    | nil =>
      intro i _ hat
      rw [List.drop_nil, List.prefix_nil] at hat
      simp [indexOf, hat] at hnone
    | cons x s ih =>
      unfold indexOf at hnone
      by_cases hhere : del <+: x :: s
      · simp [hhere] at hnone
      · rw [if_neg hhere, Option.map_eq_none_iff] at hnone
        intro i hi
        cases i with
        | zero => exact hhere
        | succ i => exact ih hnone i (Nat.le_of_succ_le_succ hi)
  · intro h
    by_contra hsome
    obtain ⟨i, hi⟩ := Option.ne_none_iff_exists'.mp hsome
    obtain ⟨hle, hat, _⟩ := indexOf_eq_some_iff.mp hi
    exact h i hle hat

/-- An occurrence ends inside the list. -/
theorem add_length_le_of_indexOf (h : indexOf del s = some i) : i + del.length ≤ s.length := by
  obtain ⟨hle, hat, _⟩ := indexOf_eq_some_iff.mp h
  have hlength := hat.length_le
  rw [List.length_drop] at hlength
  omega

/-- The pieces between the occurrences of `del`, from the front on. -/
def splitOn (del s : List α) : List (List α) :=
  match _hfirst : indexOf del s with
  | none => [s]
  | some i => if del = [] then [s] else s.take i :: splitOn del (s.drop (i + del.length))
termination_by s.length
decreasing_by
  have hle := add_length_le_of_indexOf _hfirst
  have hpos : 0 < del.length := List.length_pos_iff.mpr (by assumption)
  rw [List.length_drop]
  omega

/-- Where a list does not start an occurrence, the first one is that of the rest. -/
theorem indexOf_append (h : ∀ j < a.length, ¬ del <+: (a ++ b).drop j) :
    indexOf del (a ++ b) = (indexOf del b).map (· + a.length) := by
  induction a with
  | nil => simp
  | cons x a ih =>
    have hhere : ¬ del <+: x :: (a ++ b) := h 0 (Nat.succ_pos _)
    have hrest := ih fun j hj => h (j + 1) (Nat.succ_lt_succ hj)
    rw [List.cons_append, indexOf, if_neg hhere, hrest, Option.map_map]
    apply congrArg (Option.map · (indexOf del b))
    funext k
    simp only [Function.comp_apply, List.length_cons]
    omega

omit [DecidableEq α] in
theorem not_prefix_of_notMem (hd : d ∉ a) (hj : j < a.length) : ¬ d :: s <+: (a ++ b).drop j := by
  intro hat
  rw [List.drop_append_of_le_length hj.le, List.drop_eq_getElem_cons hj, List.cons_append] at hat
  have heq := (List.cons_prefix_cons.mp hat).1
  exact hd (heq ▸ List.getElem_mem hj)

theorem indexOf_of_notMem (hd : d ∉ s) : indexOf (d :: del) s = none := by
  apply indexOf_eq_none_iff.mpr
  intro i hi hat
  have hmem : d ∈ s.drop i := hat.subset (List.mem_cons_self ..)
  exact hd (List.mem_of_mem_drop hmem)

theorem indexOf_append_of_notMem (hd : d ∉ a) :
    indexOf (d :: del) (a ++ (d :: del ++ b)) = some a.length := by
  rw [indexOf_append fun j hj => not_prefix_of_notMem hd hj]
  have hhere : indexOf (d :: del) (d :: del ++ b) = some 0 :=
    indexOf_eq_some_iff.mpr ⟨Nat.zero_le _, List.prefix_append _ _, fun j hj =>
      absurd hj (Nat.not_lt_zero j)⟩
  rw [hhere, Option.map_some, Nat.zero_add]

theorem splitOn_of_none (h : indexOf del s = none) : splitOn del s = [s] := by
  rw [splitOn]
  split
  · rfl
  · rename_i i hi
    rw [h] at hi
    cases hi

theorem splitOn_of_some (hdel : del ≠ []) (h : indexOf del s = some i) :
    splitOn del s = s.take i :: splitOn del (s.drop (i + del.length)) := by
  rw [splitOn]
  split
  · rename_i hnone
    rw [h] at hnone
    cases hnone
  · rename_i k hk
    rw [h] at hk
    obtain rfl := Option.some.inj hk
    rw [if_neg hdel]

theorem splitOn_ne_nil (del s : List α) : splitOn del s ≠ [] := by
  rw [splitOn]
  split
  · exact List.cons_ne_nil _ _
  · split
    · exact List.cons_ne_nil _ _
    · exact List.cons_ne_nil _ _

theorem length_le_of_mem_splitOn {p : List α} (hp : p ∈ splitOn del s) : p.length ≤ s.length := by
  fun_induction splitOn del s with
  | case1 s hnone => simp_all
  | case2 s i hfirst hdel => simp_all
  | case3 s i hfirst hdel ih =>
    rcases List.mem_cons.mp hp with rfl | hrest
    · rw [List.length_take]
      omega
    · have hle := ih hrest
      rw [List.length_drop] at hle
      omega

theorem splitOn_append_of_notMem (hd : d ∉ a) :
    splitOn (d :: del) (a ++ (d :: del ++ b)) = a :: splitOn (d :: del) b := by
  rw [splitOn_of_some (List.cons_ne_nil _ _) (indexOf_append_of_notMem hd), List.take_left,
    ← List.drop_drop, List.drop_left, List.drop_left]

theorem subset_of_mem_splitOn {p : List α} (hp : p ∈ splitOn del s) : p ⊆ s := by
  fun_induction splitOn del s with
  | case1 s hnone =>
    rw [List.mem_singleton.mp hp]
    exact List.Subset.refl _
  | case2 s i hfirst hdel =>
    rw [List.mem_singleton.mp hp]
    exact List.Subset.refl _
  | case3 s i hfirst hdel ih =>
    rcases List.mem_cons.mp hp with rfl | hrest
    · exact List.take_subset i s
    · exact List.Subset.trans (ih hrest) (List.drop_subset _ s)

/-- What is in no delimiter is in a piece. -/
theorem exists_mem_splitOn {c : α} (hc : c ∈ s) (hnot : c ∉ del) : ∃ p ∈ splitOn del s, c ∈ p := by
  fun_induction splitOn del s with
  | case1 s hnone => exact ⟨s, List.mem_singleton_self s, hc⟩
  | case2 s i hfirst hdel => exact ⟨s, List.mem_singleton_self s, hc⟩
  | case3 s i hfirst hdel ih =>
    obtain ⟨_, ⟨rest, hrest⟩, _⟩ := indexOf_eq_some_iff.mp hfirst
    have hdrop : s.drop (i + del.length) = rest := by
      rw [← List.drop_drop, ← hrest, List.drop_left]
    rw [← List.take_append_drop i s, ← hrest] at hc
    rcases List.mem_append.mp hc with hfront | hback
    · exact ⟨s.take i, List.mem_cons_self .., hfront⟩
    · rcases List.mem_append.mp hback with hdel | hmem
      · exact absurd hdel hnot
      · obtain ⟨p, hp, hcp⟩ := ih (hdrop ▸ hmem)
        exact ⟨p, List.mem_cons_of_mem _ hp, hcp⟩

/-- One element occurs where the list has it. -/
theorem indexOf_singleton_eq_none_iff : indexOf [d] s = none ↔ d ∉ s := by
  refine ⟨fun hnone hd => ?_, indexOf_of_notMem⟩
  obtain ⟨a, b, rfl⟩ := List.append_of_mem hd
  have hat := indexOf_eq_none_iff.mp hnone a.length (by simp)
  rw [List.drop_left] at hat
  exact hat ⟨b, rfl⟩

theorem indexOf_eq_none_iff_notInfix : indexOf del s = none ↔ ¬ del <:+: s := by
  rw [indexOf_eq_none_iff]
  constructor
  · rintro hnone ⟨a, b, rfl⟩
    apply hnone a.length (by simp)
    rw [List.append_assoc, List.drop_left]
    exact List.prefix_append del b
  · intro hnot i _ hat
    exact hnot (List.IsInfix.trans hat.isInfix (List.drop_suffix i s).isInfix)

/-- What follows a list does not change where it first has an occurrence. -/
theorem indexOf_append_of_some (h : indexOf del a = some i) : indexOf del (a ++ b) = some i := by
  have hend := add_length_le_of_indexOf h
  obtain ⟨hle, hat, hfirst⟩ := indexOf_eq_some_iff.mp h
  refine indexOf_eq_some_iff.mpr ⟨?_, ?_, fun j hj hother => hfirst j hj ?_⟩
  · rw [List.length_append]
    omega
  · rw [List.drop_append_of_le_length hle]
    exact List.prefix_append_of_prefix hat
  · rw [List.drop_append_of_le_length (by omega)] at hother
    apply List.prefix_of_prefix_length_le hother (List.prefix_append _ b)
    rw [List.length_drop]
    omega

/-- The first piece ends at the first delimiter. -/
theorem exists_splitOn_eq (d : α) (s : List α) :
    ∃ pieces, splitOn [d] s = (s.takeWhile fun c => c ≠ d) :: pieces := by
  by_cases hd : d ∈ s
  · obtain ⟨a, b, rfl, ha⟩ := List.eq_append_cons_of_mem hd
    refine ⟨splitOn [d] b, ?_⟩
    have hfront : ∀ c ∈ a, decide (c ≠ d) = true := by
      intro c hc
      apply decide_eq_true
      rintro rfl
      exact ha hc
    have htake : ((a ++ d :: b).takeWhile fun c => c ≠ d) = a := by
      rw [List.takeWhile_append_of_pos hfront]
      simp
    rw [htake]
    exact splitOn_append_of_notMem ha
  · refine ⟨[], ?_⟩
    have htake : (s.takeWhile fun c => c ≠ d) = s := by
      rw [List.takeWhile_eq_self_iff]
      intro c hc
      apply decide_eq_true
      rintro rfl
      exact hd hc
    rw [splitOn_of_none (indexOf_of_notMem hd), htake]

section Skipping

variable {c : List α}

/-- No occurrence of `del` begins in `a` where `b` follows. -/
def Skips (del a b : List α) : Prop := ∀ j < a.length, ¬ del <+: (a ++ b).drop j

theorem indexOf_of_skips (h : Skips del a b) :
    indexOf del (a ++ b) = (indexOf del b).map (· + a.length) := indexOf_append h

omit [DecidableEq α] in
theorem Skips.append (ha : Skips del a (b ++ c)) (hb : Skips del b c) : Skips del (a ++ b) c := by
  intro j hj hat
  rw [List.append_assoc] at hat
  by_cases hlt : j < a.length
  · exact ha j hlt hat
  · obtain ⟨k, rfl⟩ : ∃ k, j = a.length + k := ⟨j - a.length, by omega⟩
    rw [List.length_append] at hj
    apply hb k (by omega)
    rwa [← List.drop_drop, List.drop_left] at hat

omit [DecidableEq α] in
/-- A longer list occurs at fewer places. -/
theorem Skips.of_isPrefix {del' : List α} (hdel : del <+: del') (h : Skips del a b) :
    Skips del' a b := fun j hj hat => h j hj (hdel.trans hat)

omit [DecidableEq α] in
theorem skips_of_notMem (hd : d ∉ a) : Skips (d :: del) a b :=
  fun _ hj => not_prefix_of_notMem hd hj

omit [DecidableEq α] in
/-- An element that is not in `del` ends each of its occurrences in front of it. -/
theorem skips_of_notInfix (hnot : ¬ del <:+: a) (hd : d ∉ del) : Skips del a (d :: b) := by
  intro j hj hat
  rw [List.drop_append_of_le_length hj.le] at hat
  have hinside : ¬ del <+: a.drop j := fun hfront =>
    hnot (hfront.isInfix.trans (List.drop_suffix j a).isInfix)
  obtain ⟨t, ht⟩ := hat
  rcases List.append_eq_append_iff.mp ht with ⟨rest, hfront, _⟩ | ⟨rest, hdel, hrest⟩
  · exact hinside ⟨rest, hfront.symm⟩
  · cases rest with
    | nil =>
      rw [List.append_nil] at hdel
      exact hinside (hdel ▸ List.prefix_refl _)
    | cons e rest =>
      rw [List.cons_append] at hrest
      apply hd
      rw [hdel, (List.cons.inj hrest).1]
      simp

omit [DecidableEq α] in
theorem notInfix_of_skips (hdel : del ≠ []) (h : Skips del a []) : ¬ del <:+: a := by
  rintro ⟨s, t, rfl⟩
  have hpos := List.length_pos_iff.mpr hdel
  apply h s.length
  · simp only [List.length_append]
    omega
  · rw [List.append_nil, List.append_assoc, List.drop_left]
    exact List.prefix_append del t

omit [DecidableEq α] in
theorem notInfix_concat (hdel : del ≠ []) (hlast : del.getLast? ≠ some d) (hnot : ¬ del <:+: a) :
    ¬ del <:+: a ++ [d] := by
  intro hinside
  rcases List.infix_concat_iff.mp hinside with hsuffix | hinside
  · rcases List.suffix_concat_iff.mp hsuffix with hnil | ⟨t, ht, _⟩
    · exact hdel hnil
    · apply hlast
      rw [ht]
      exact List.getLast?_concat
  · exact hnot hinside

theorem indexOf_self_append (del s : List α) : indexOf del (del ++ s) = some 0 :=
  indexOf_eq_some_iff.mpr ⟨Nat.zero_le _, List.prefix_append del s, fun j hj =>
    absurd hj (Nat.not_lt_zero j)⟩

/-- The first occurrence is behind what it is not found in. -/
theorem indexOf_of_skips_self (h : Skips del a (del ++ b)) :
    indexOf del (a ++ (del ++ b)) = some a.length := by
  rw [indexOf_of_skips h, indexOf_self_append, Option.map_some, Nat.zero_add]

theorem splitOn_of_skips (hdel : del ≠ []) (h : Skips del a (del ++ b)) :
    splitOn del (a ++ (del ++ b)) = a :: splitOn del b := by
  rw [splitOn_of_some hdel (indexOf_of_skips_self h), List.take_left, ← List.drop_drop,
    List.drop_left, List.drop_left]

omit [DecidableEq α] in
theorem drop_of_drop {p : ℕ} (h : s.drop p = a ++ b) : s.drop (p + a.length) = b := by
  rw [← List.drop_drop, h, List.drop_left]

end Skipping

section Leftmost

/-- The occurrences of `del` from `start` on that are taken from the front: each is the first one
behind the end of the one before. -/
inductive Leftmost (del s : List α) : ℕ → List ℕ → Prop
  | none {start : ℕ} (hnone : ∀ i, start ≤ i → ¬ del <+: s.drop i) : Leftmost del s start []
  | next {start i : ℕ} {positions : List ℕ} (hle : start ≤ i) (hat : del <+: s.drop i)
      (hfirst : ∀ j, start ≤ j → j < i → ¬ del <+: s.drop j)
      (hrest : Leftmost del s (i + del.length) positions) : Leftmost del s start (i :: positions)

/-- What is left of `s` from `start` on when `n` elements at each position are taken out. -/
def cutAt (n : ℕ) (s : List α) (start : ℕ) : List ℕ → List (List α)
  | [] => [s.drop start]
  | i :: positions => (s.drop start).take (i - start) :: cutAt n s (i + n) positions

omit [DecidableEq α] in
theorem length_cutAt (n : ℕ) (s : List α) (start : ℕ) (positions : List ℕ) :
    (cutAt n s start positions).length = positions.length + 1 := by
  induction positions generalizing start with
  | nil => rfl
  | cons i positions ih =>
    unfold cutAt
    rw [List.length_cons, ih, List.length_cons]

omit [DecidableEq α] in
/-- There is only one list of leftmost occurrences. -/
theorem Leftmost.unique {start : ℕ} {positions others : List ℕ} (h : Leftmost del s start positions)
    (h' : Leftmost del s start others) : positions = others := by
  induction h generalizing others with
  | none hnone =>
    cases h' with
    | none => rfl
    | next hle hat => exact absurd hat (hnone _ hle)
  | @next start i positions hle hat hfirst hrest ih =>
    cases h' with
    | none hnone => exact absurd hat (hnone _ hle)
    | @next _ k others hle' hat' hfirst' hrest' =>
      have hsame : i = k := by
        by_contra hne
        rcases Nat.lt_or_gt_of_ne hne with hlt | hgt
        · exact hfirst' i hle hlt hat
        · exact hfirst k hle' hgt hat'
      subst hsame
      rw [ih hrest']

theorem exists_leftmost (hdel : del ≠ []) {start : ℕ} (hstart : start ≤ s.length) :
    ∃ positions, Leftmost del s start positions ∧
      splitOn del (s.drop start) = cutAt del.length s start positions := by
  -- the text behind the next occurrence is shorter
  induction hleft : s.length - start using Nat.strong_induction_on generalizing start with
  | _ left ih =>
    cases hfind : indexOf del (s.drop start) with
    | none =>
      refine ⟨[], .none fun i hi hat => ?_, splitOn_of_none hfind⟩
      by_cases hlt : i ≤ s.length
      · have hnone := indexOf_eq_none_iff.mp hfind (i - start) (by rw [List.length_drop]; omega)
        rw [List.drop_drop, Nat.add_sub_cancel' hi] at hnone
        exact hnone hat
      · rw [List.drop_eq_nil_of_le (by omega)] at hat
        exact hdel (List.prefix_nil.mp hat)
    | some k =>
      have hend := add_length_le_of_indexOf hfind
      have hpos := List.length_pos_iff.mpr hdel
      obtain ⟨hle, hat, hfirst⟩ := indexOf_eq_some_iff.mp hfind
      rw [List.length_drop] at hend
      obtain ⟨positions, hpositions, hrest⟩ :=
        ih (s.length - (start + k + del.length)) (by omega) (by omega) rfl
      refine ⟨(start + k) :: positions,
        .next (by omega) ?_ (fun j hj hlt hother => ?_) hpositions, ?_⟩
      · rwa [List.drop_drop] at hat
      · apply hfirst (j - start) (by omega)
        rwa [List.drop_drop, Nat.add_sub_cancel' hj]
      · rw [splitOn_of_some hdel hfind, List.drop_drop, ← Nat.add_assoc, hrest, cutAt,
          Nat.add_sub_cancel_left]

/-- The pieces with the delimiter between them are the list. -/
theorem intercalate_splitOn (del s : List α) : del.intercalate (splitOn del s) = s := by
  fun_induction splitOn del s with
  | case1 s hnone => exact List.intercalate_singleton
  | case2 s i hfirst hdel => exact List.intercalate_singleton
  | case3 s i hfirst hdel ih =>
    obtain ⟨_, ⟨rest, hrest⟩, _⟩ := indexOf_eq_some_iff.mp hfirst
    have hdrop : s.drop (i + del.length) = rest := by
      rw [← List.drop_drop, ← hrest, List.drop_left]
    have hne : splitOn del (s.drop (i + del.length)) ≠ [] := by
      rw [splitOn]
      split
      · exact List.cons_ne_nil _ _
      · split
        · exact List.cons_ne_nil _ _
        · exact List.cons_ne_nil _ _
    rw [List.intercalate_cons_of_ne_nil hne, ih, hdrop, List.append_assoc, hrest,
      List.take_append_drop]

theorem notInfix_of_mem_splitOn (hdel : del ≠ []) {p : List α} (hp : p ∈ splitOn del s) :
    ¬ del <:+: p := by
  fun_induction splitOn del s with
  | case1 s hnone =>
    rw [List.mem_singleton.mp hp]
    exact indexOf_eq_none_iff_notInfix.mp hnone
  | case2 s i hfirst hnil => exact absurd hnil hdel
  | case3 s i hfirst hne ih =>
    rcases List.mem_cons.mp hp with rfl | hrest
    · -- an occurrence in front of `i` would be found before it
      rintro ⟨a, b, hinside⟩
      obtain ⟨_, _, hbefore⟩ := indexOf_eq_some_iff.mp hfirst
      have hpos := List.length_pos_iff.mpr hdel
      have hlength := congrArg List.length hinside
      simp only [List.length_append, List.length_take] at hlength
      apply hbefore a.length (by omega)
      have hwhole : a ++ (del ++ b ++ s.drop i) = s := by
        rw [← List.append_assoc, ← List.append_assoc, hinside, List.take_append_drop]
      have hbehind : s.drop a.length = del ++ b ++ s.drop i := by
        conv => lhs; rw [← hwhole, List.drop_left]
      exact ⟨b ++ s.drop i, by rw [hbehind, List.append_assoc]⟩
    · exact ih hrest

end Leftmost

end OrderBookServer.Occurrences
