import Mathlib.Data.List.Nodup

/-!
Lists of entries with a key: lookup, deletion and update by key, and how they
commute with the selection of a part of the list. The order of a list is its
priority: deletion and update keep it, and a new entry goes to the back.
-/
namespace OrderBookServer.KeyedList

variable {κ α β : Type} [DecidableEq κ]

def find (key : α → κ) (l : List α) (k : κ) : Option α := l.find? (fun x => key x = k)

def delete (key : α → κ) (l : List α) (k : κ) : List α := l.filter (fun x => key x ≠ k)

def update (key : α → κ) (l : List α) (k : κ) (f : α → α) : List α :=
  l.map (fun x => if key x = k then f x else x)

variable {key : α → κ} {key' : β → κ} {l : List α} {k k' : κ} {x : α} {f : α → α}

theorem find_eq_none_iff : find key l k = none ↔ ∀ x ∈ l, key x ≠ k := by
  simp [find]

theorem find_eq_some_iff (hl : (l.map key).Nodup) :
    find key l k = some x ↔ x ∈ l ∧ key x = k := by
  constructor
  · intro h
    exact ⟨List.mem_of_find?_eq_some h, by simpa using List.find?_some h⟩
  · rintro ⟨hx, rfl⟩
    cases hfind : find key l (key x) with
    | none => exact absurd rfl (find_eq_none_iff.mp hfind x hx)
    | some y =>
      have hkey : key y = key x := by simpa using List.find?_some hfind
      rw [List.inj_on_of_nodup_map hl (List.mem_of_find?_eq_some hfind) hx hkey]

theorem find_delete : find key (delete key l k) k' = if k' = k then none else find key l k' := by
  split
  · rename_i hk
    rw [find_eq_none_iff]
    intro x hx
    rw [hk]
    simpa using (List.mem_filter.mp hx).2
  · rename_i hk
    simp only [find, delete, List.find?_filter]
    congr 1
    funext x
    by_cases hx : key x = k'
    · simp [hx, hk]
    · simp [hx]

theorem find_append_singleton : find key (l ++ [x]) k =
    (find key l k).or (if key x = k then some x else none) := by
  by_cases hx : key x = k <;> simp [find, List.find?_append, hx]

theorem find_update (hf : ∀ x, key (f x) = key x) : find key (update key l k f) k' =
    if k' = k then (find key l k').map f else find key l k' := by
  have hpred : ((fun x => decide (key x = k')) ∘ fun x => if key x = k then f x else x) =
      fun x => decide (key x = k') := by
    funext x
    by_cases hx : key x = k <;> simp [hx, hf]
  rw [find, update, List.find?_map, hpred]
  change (find key l k').map _ = _
  cases hfind : find key l k' with
  | none => simp
  | some y =>
    have hkey : key y = k' := by simpa using List.find?_some hfind
    by_cases hk : k' = k <;> simp [hkey, hk]

/-- What is deleted need not be updated. -/
theorem delete_update (hf : ∀ x, key (f x) = key x) :
    delete key (update key l k f) k = delete key l k := by
  have hkey : ∀ x, key (if key x = k then f x else x) = key x := by
    intro x
    split
    · exact hf x
    · rfl
  have hpred : ((fun x => decide (key x ≠ k)) ∘ fun x => if key x = k then f x else x) =
      fun x => decide (key x ≠ k) := by
    funext x
    simp only [Function.comp_apply, hkey]
  rw [delete, update, List.filter_map, hpred, delete]
  conv_rhs => rw [← List.map_id (l.filter _)]
  refine List.map_congr_left fun x hx => ?_
  rw [if_neg (by simpa using (List.mem_filter.mp hx).2)]
  rfl

theorem keys_delete_nodup (hl : (l.map key).Nodup) : ((delete key l k).map key).Nodup :=
  hl.sublist (List.filter_sublist.map _)

theorem keys_update (hf : ∀ x, key (f x) = key x) : (update key l k f).map key = l.map key := by
  simp only [update, List.map_map]
  apply List.map_congr_left
  intro x _
  by_cases hx : key x = k <;> simp [hx, hf]

theorem keys_append_singleton_nodup (hl : (l.map key).Nodup) (hx : find key l (key x) = none) :
    ((l ++ [x]).map key).Nodup := by
  rw [List.map_append, List.nodup_append]
  refine ⟨hl, by simp, ?_⟩
  rintro _ hk _ hk' rfl
  obtain ⟨y, hy, heq⟩ := List.mem_map.mp hk
  simp only [List.map_cons, List.map_nil, List.mem_singleton] at hk'
  exact find_eq_none_iff.mp hx y hy (heq.trans hk')

theorem mem_delete : x ∈ delete key l k ↔ x ∈ l ∧ key x ≠ k := by
  simp [delete]

theorem delete_sublist : (delete key l k).Sublist l := List.filter_sublist

/-- An entry and the list without its key. -/
theorem perm_cons_delete (hl : (l.map key).Nodup) (hx : x ∈ l) :
    l.Perm (x :: delete key l (key x)) := by
  induction l with
  | nil => cases hx
  | cons y l ih =>
    obtain ⟨hy, htail⟩ := List.nodup_cons.mp hl
    rcases List.mem_cons.mp hx with rfl | hx
    · have hrest : delete key (x :: l) (key x) = l := by
        rw [delete, List.filter_cons_of_neg (by simp), List.filter_eq_self]
        intro z hz
        have hne : key z ≠ key x := fun heq => hy (heq ▸ List.mem_map_of_mem hz)
        simpa using hne
      rw [hrest]
    · have hne : key y ≠ key x := fun heq => hy (heq ▸ List.mem_map_of_mem hx)
      have hrest : delete key (y :: l) (key x) = y :: delete key l (key x) :=
        List.filter_cons_of_pos (by simpa using hne)
      rw [hrest]
      exact ((ih htail hx).cons y).trans (List.Perm.swap ..)

theorem countP_delete (hl : (l.map key).Nodup) (hx : x ∈ l) (p : α → Bool) :
    l.countP p = (delete key l (key x)).countP p + if p x then 1 else 0 := by
  rw [(perm_cons_delete hl hx).countP_eq, List.countP_cons]

section Selection

variable {p : α → Bool} {g : α → β} {f' : β → β}

theorem select_delete (hg : ∀ x, key' (g x) = key x) :
    ((delete key l k).filter p).map g = delete key' ((l.filter p).map g) k := by
  simp only [delete, List.filter_map, List.filter_filter]
  congr 2
  funext x
  simp [hg, Bool.and_comm]

theorem select_update (hp : ∀ x, p (f x) = p x) (hg : ∀ x, key' (g x) = key x)
    (hf : ∀ x, g (f x) = f' (g x)) :
    ((update key l k f).filter p).map g = update key' ((l.filter p).map g) k f' := by
  have hpred : (p ∘ fun x => if key x = k then f x else x) = p := by
    funext x
    by_cases hx : key x = k <;> simp [hx, hp]
  simp only [update, List.filter_map, List.map_map, hpred]
  apply List.map_congr_left
  intro x _
  by_cases hx : key x = k <;> simp [hx, hg, hf]

end Selection

end OrderBookServer.KeyedList
