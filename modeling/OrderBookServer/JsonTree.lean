import Mathlib.Data.Nat.Init
import OrderBookServer.JsonRelease

/-!
The trees that handles denote. A tree depends on the handles inside it and on the objects they
refer to, and on nothing else. A handle that lies inside what it refers to denotes no tree.
-/
namespace OrderBookServer.JsonGraph

variable {δ : Type} {g g' : JsonGraph δ} {a b c x o o' : ℕ} {m : MValue δ} {t t' : Json δ}
  {depth depth' : ℕ}

section Mapping

variable {α β : Type} {f f' : α → Option β} {l : List α} {l' : List β}

theorem mapM_congr (h : ∀ e ∈ l, f e = f' e) : l.mapM f = l.mapM f' := by
  induction l with
  | nil => rfl
  | cons e l ih =>
    rw [List.mapM_cons, List.mapM_cons, h e (by simp), ih fun e' he' => h e' (by simp [he'])]

theorem exists_of_mapM (h : l.mapM f = some l') {e : α} (he : e ∈ l) : ∃ v, f e = some v := by
  induction l generalizing l' with
  | nil => cases he
  | cons e' l ih =>
    rw [List.mapM_cons] at h
    obtain ⟨v, hv, hrest⟩ := Option.bind_eq_some_iff.mp h
    obtain ⟨vs, hvs, -⟩ := Option.bind_eq_some_iff.mp hrest
    rcases List.mem_cons.mp he with rfl | he
    · exact ⟨v, hv⟩
    · exact ih hvs he

end Mapping

/-- Two handles that refer to the same denote the same tree, where the handles in what they refer
to do. -/
theorem tree_of_find (hfind : g'.find b = g.find a)
    (hsame : ∀ o, g.find a = some (.object o) → (g'.objects o).Same (g.objects o))
    (hshown : ∀ o, g.find a = some (.object o) → ∀ c ∈ (g.objects o).shown,
      g'.tree depth' c = g.tree depth c) : g'.tree (depth' + 1) b = g.tree (depth + 1) a := by
  unfold tree
  rw [hfind]
  cases ha : g.find a with
  | none => rfl
  | some m =>
    cases m with
    | null => rfl
    | value v isStringFormat => rfl
    | object o =>
      obtain ⟨harray, hobject, hitems⟩ := hsame o ha
      have hchild := hshown o ha
      unfold JsonObject.shown at hchild
      simp only [harray, hobject, hitems]
      cases hkind : (g.objects o).isArray with
      | true =>
        rw [hkind, if_pos rfl] at hchild
        simp only [if_true]
        rw [mapM_congr hchild]
      | false =>
        simp only [hkind, Bool.false_eq_true, if_false] at hchild
        simp only [Bool.false_eq_true, if_false]
        rw [mapM_congr fun e he => by rw [hchild e.2 (List.mem_map_of_mem he)]]

/-- `holds` is closed under going into what a handle refers to, and the two states agree on it. -/
theorem tree_congr {holds : ℕ → Prop} (hfind : ∀ a, holds a → g'.find a = g.find a)
    (hsame : ∀ a o, holds a → g.find a = some (.object o) → (g'.objects o).Same (g.objects o))
    (hshown : ∀ a o, holds a → g.find a = some (.object o) → ∀ c ∈ (g.objects o).shown, holds c)
    (ha : holds a) : g'.tree depth a = g.tree depth a := by
  induction depth generalizing a with
  | zero => rfl
  | succ depth ih =>
    exact tree_of_find (hfind a ha) (fun o => hsame a o ha)
      fun o ho c hc => ih (hshown a o ha ho c hc)

theorem tree_child (h : g.tree (depth + 1) a = some t) (ha : g.find a = some (.object o))
    (hc : c ∈ (g.objects o).shown) : ∃ t', g.tree depth c = some t' := by
  simp only [tree, ha] at h
  unfold JsonObject.shown at hc
  split at h
  · rename_i hkind
    rw [if_pos hkind] at hc
    obtain ⟨ts, hts, -⟩ := Option.map_eq_some_iff.mp h
    exact exists_of_mapM hts hc
  · rename_i hkind
    rw [if_neg hkind] at hc
    obtain ⟨e, he, rfl⟩ := List.mem_map.mp hc
    obtain ⟨ts, hts, -⟩ := Option.map_eq_some_iff.mp h
    obtain ⟨v, hv⟩ := exists_of_mapM hts he
    obtain ⟨t', ht', -⟩ := Option.map_eq_some_iff.mp hv
    exact ⟨t', ht'⟩

theorem tree_succ (h : g.tree depth a = some t) : g.tree (depth + 1) a = some t := by
  induction depth generalizing a t with
  | zero => cases h
  | succ depth ih =>
    rw [← h]
    refine tree_of_find rfl (fun _ _ => ⟨rfl, rfl, rfl⟩) fun o ha c hc => ?_
    obtain ⟨t', ht'⟩ := tree_child h ha hc
    rw [ht', ih ht']

theorem tree_le (h : g.tree depth a = some t) (hle : depth ≤ depth') :
    g.tree depth' a = some t := by
  induction hle with
  | refl => exact h
  | step _ ih => exact tree_succ ih

/-- A handle denotes one tree at most. -/
theorem Denotes.unique (h : g.Denotes a t) (h' : g.Denotes a t') : t = t' := by
  obtain ⟨depth, h⟩ := h
  obtain ⟨depth', h'⟩ := h'
  have hleft := tree_le h (Nat.le_max_left depth depth')
  rw [tree_le h' (Nat.le_max_right depth depth')] at hleft
  exact (Option.some.inj hleft).symm

/-- A handle inside a tree has a tree with fewer levels. -/
theorem tree_inside (h : g.tree depth a = some t) (ha : g.find a = some (.object o))
    (hc : g.Inside o c) : ∃ less t', less < depth ∧ g.tree less c = some t' := by
  induction hc with
  | child hc =>
    cases depth with
    | zero => cases h
    | succ depth =>
      obtain ⟨t', ht'⟩ := tree_child h ha hc
      exact ⟨depth, t', Nat.lt_succ_self depth, ht'⟩
  | step _ href hc ih =>
    obtain ⟨less, t', hless, ht'⟩ := ih
    cases less with
    | zero => cases ht'
    | succ less =>
      obtain ⟨t'', ht''⟩ := tree_child ht' href hc
      exact ⟨less, t'', by omega, ht''⟩

/-- A handle inside what it refers to: the levels would go down without end. -/
theorem not_denotes_of_inside (ha : g.find a = some (.object o)) (hcycle : g.Inside o a) :
    ¬ g.Denotes a t := by
  rintro ⟨depth, h⟩
  induction depth using Nat.strong_induction_on generalizing t with
  | h depth ih =>
    obtain ⟨less, t', hless, ht'⟩ := tree_inside h ha hcycle
    exact ih less hless ht'

end OrderBookServer.JsonGraph
