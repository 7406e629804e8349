import OrderBookServer.JsonGraph

/-!
What the release of a handle destroys: the handles that lie in objects which this handle alone
keeps, directly or through such objects. The invariant of the loop over the handles to destroy
says that a count is the number of the handles that are left, and that an object is freed where
there are none.
-/
namespace OrderBookServer.JsonGraph

open KeyedList

variable {δ : Type}

section Finding

variable {g : JsonGraph δ} {a b : ℕ} {m : MValue δ}

theorem find_eq_some_iff (hk : (g.handles.map Handle.addr).Nodup) :
    g.find a = some m ↔ ⟨a, m⟩ ∈ g.handles := by
  unfold find
  constructor
  · intro h
    obtain ⟨x, hx, rfl⟩ := Option.map_eq_some_iff.mp h
    obtain ⟨hmem, rfl⟩ := (KeyedList.find_eq_some_iff hk).mp hx
    exact hmem
  · intro h
    rw [(KeyedList.find_eq_some_iff hk).mpr ⟨h, rfl⟩]
    rfl

theorem find_eq_none_iff : g.find a = none ↔ a ∉ g.handles.map Handle.addr := by
  unfold find
  rw [Option.map_eq_none_iff, KeyedList.find_eq_none_iff, List.mem_map]
  constructor
  · rintro h ⟨x, hx, heq⟩
    exact h x hx heq
  · intro h x hx heq
    exact h ⟨x, hx, heq⟩

theorem exists_find (h : a ∈ g.handles.map Handle.addr) : ∃ m, g.find a = some m := by
  cases hfind : g.find a with
  | none => exact absurd h (find_eq_none_iff.mp hfind)
  | some m => exact ⟨m, rfl⟩

theorem mem_addrs_of_find (h : g.find a = some m) : a ∈ g.handles.map Handle.addr := by
  by_contra hnone
  rw [find_eq_none_iff.mpr hnone] at h
  cases h

theorem mem_addrs_drop : b ∈ (g.drop a).handles.map Handle.addr ↔
    b ∈ g.handles.map Handle.addr ∧ b ≠ a := by
  simp only [drop, List.mem_map, mem_delete]
  constructor
  · rintro ⟨x, ⟨hx, hne⟩, rfl⟩
    exact ⟨⟨x, hx, rfl⟩, hne⟩
  · rintro ⟨⟨x, hx, rfl⟩, hne⟩
    exact ⟨x, ⟨hx, hne⟩, rfl⟩

@[simp] theorem handles_release (g : JsonGraph δ) (m : MValue δ) :
    (g.release m).1.handles = g.handles := by
  unfold release
  cases m with
  | null => rfl
  | value v isStringFormat => rfl
  | object o =>
    simp only
    split <;> rfl

theorem objects_release_of_ne {o o' : ℕ} (hne : o' ≠ o) :
    (g.release (.object o)).1.objects o' = g.objects o' := by
  unfold release
  simp only
  split <;> exact Function.update_of_ne hne ..

end Finding

section Counting

/-- The number of handles other than `x` that refer to the object. -/
def others (g : JsonGraph δ) (x o : ℕ) : ℕ :=
  g.handles.countP fun h => h.addr ≠ x && h.mValue.refersTo o

def pending (m : MValue δ) (o : ℕ) : ℕ := if m.refersTo o then 1 else 0

variable {g : JsonGraph δ} {x o : ℕ} {h : Handle δ}

theorem others_drop (hk : (g.handles.map Handle.addr).Nodup) (hh : h ∈ g.handles)
    (hne : h.addr ≠ x) (o : ℕ) :
    g.others x o = (g.drop h.addr).others x o + pending h.mValue o := by
  have hcount := countP_delete hk hh fun h => h.addr ≠ x && h.mValue.refersTo o
  simpa [others, drop, pending, hne] using hcount

theorem refs_eq_others (hk : (g.handles.map Handle.addr).Nodup) (hh : h ∈ g.handles) (o : ℕ) :
    g.refs o = g.others h.addr o + pending h.mValue o := by
  have hcount := countP_delete hk hh fun h => h.mValue.refersTo o
  have hothers : g.others h.addr o =
      (delete Handle.addr g.handles h.addr).countP fun h => h.mValue.refersTo o := by
    rw [others, delete, List.countP_filter]
    apply List.countP_congr
    intro k _
    simp [Bool.and_comm]
  rw [refs, hcount, hothers, pending]

theorem others_pos (hh : h ∈ g.handles) (hne : h.addr ≠ x) (href : h.mValue.refersTo o) :
    0 < g.others x o := List.countP_pos_iff.mpr ⟨h, hh, by simp [hne, href]⟩

theorem others_release (g : JsonGraph δ) (m : MValue δ) (x o : ℕ) :
    (g.release m).1.others x o = g.others x o := by
  unfold others
  rw [handles_release]

theorem refs_pos (hh : h ∈ g.handles) (href : h.mValue.refersTo o) : 0 < g.refs o :=
  List.countP_pos_iff.mpr ⟨h, hh, href⟩

end Counting

theorem refersTo_iff {m : MValue δ} {o : ℕ} : m.refersTo o = true ↔ m = .object o := by
  cases m with
  | null => simp [MValue.refersTo]
  | value v isStringFormat => simp [MValue.refersTo]
  | object o' => simp [MValue.refersTo]

/-- The loop that follows the release of `x` in `g₀`: it has come to `g`, has still to destroy the
handles of `work`, and has freed the objects of `freed`. A reference `m` is dropped already and
is not yet counted off. -/
structure Cascade (g₀ : JsonGraph δ) (x : ℕ) (g : JsonGraph δ) (work freed : List ℕ)
    (m : MValue δ) : Prop where
  sub : g.handles.Sublist g₀.handles
  x_live : x ∈ g.handles.map Handle.addr
  known : ∀ o, m.refersTo o → 0 < g₀.refs o
  count : ∀ o, (g.objects o).referenceCount.toNat = g.others x o + pending m o
  pool : g.pool = g₀.pool ++ freed
  same : ∀ o, o ∉ freed → (g.objects o).Same (g₀.objects o)
  cleared : ∀ o ∈ freed, (g.objects o).children = []
  zero : ∀ o, 0 < g₀.refs o → (g.others x o + pending m o = 0 ↔ o ∈ freed)
  doomed : ∀ o ∈ freed, g₀.HeldOnlyBy x o
  gone : ∀ o ∈ freed, ∀ c ∈ (g₀.objects o).children, c ∈ work ∨ c ∉ g.handles.map Handle.addr
  lost : ∀ h ∈ g₀.handles, h.addr ∉ g.handles.map Handle.addr →
    ∃ o ∈ freed, h.addr ∈ (g₀.objects o).children
  owned : ∀ c ∈ work, ∃ o ∈ freed, c ∈ (g₀.objects o).children
  work_live : ∀ c ∈ work, c ∈ g.handles.map Handle.addr
  work_nodup : work.Nodup

section Loop

variable {g₀ g g' : JsonGraph δ} {x a o : ℕ} {work freed : List ℕ} {m : MValue δ}

theorem WellFormed.cascade (h : g₀.WellFormed) (hx : g₀.find x = some m) :
    Cascade g₀ x g₀ [] [] m := by
  have hmem := (find_eq_some_iff h.keys).mp hx
  have hrefs : ∀ o, g₀.refs o = g₀.others x o + pending m o := refs_eq_others h.keys hmem
  refine ⟨List.Sublist.refl _, mem_addrs_of_find hx, fun o ho => refs_pos hmem ho,
    fun o => (h.count o).trans (hrefs o), (List.append_nil _).symm, fun o _ => ⟨rfl, rfl, rfl⟩,
    by simp, fun o hpos => ?_, by simp, by simp, fun k hk hgone => ?_, by simp, by simp, by simp⟩
  · rw [← hrefs]
    simp only [List.not_mem_nil, iff_false]
    omega
  · exact absurd (List.mem_map_of_mem hk) hgone

/-- A handle other than `x` is destroyed. -/
theorem Cascade.drop (h : Cascade g₀ x g (a :: work) freed .null) (hk : g₀.WellFormed)
    (hne : a ≠ x) (ha : g.find a = some m) : Cascade g₀ x (g.drop a) work freed m := by
  have hkeys : (g.handles.map Handle.addr).Nodup := hk.keys.sublist (h.sub.map _)
  have hmem := (find_eq_some_iff hkeys).mp ha
  have hothers : ∀ o, g.others x o = (g.drop a).others x o + pending m o :=
    others_drop hkeys hmem hne
  have hnull : ∀ o, pending (.null : MValue δ) o = 0 := fun o => rfl
  obtain ⟨hhead, hnodup⟩ := List.nodup_cons.mp h.work_nodup
  constructor
  · exact delete_sublist.trans h.sub
  · exact mem_addrs_drop.mpr ⟨h.x_live, Ne.symm hne⟩
  · exact fun o ho => refs_pos (h.sub.subset hmem) ho
  · intro o
    rw [← hothers, ← Nat.add_zero (g.others x o)]
    exact h.count o
  · exact h.pool
  · exact h.same
  · exact h.cleared
  · intro o hpos
    rw [← hothers, ← Nat.add_zero (g.others x o)]
    exact h.zero o hpos
  · exact h.doomed
  · intro o ho c hc
    rcases h.gone o ho c hc with hwork | hgone
    · rcases List.mem_cons.mp hwork with rfl | hwork
      · exact Or.inr fun hlive => (mem_addrs_drop.mp hlive).2 rfl
      · exact Or.inl hwork
    · exact Or.inr fun hlive => hgone (mem_addrs_drop.mp hlive).1
  · intro k hk hgone
    by_cases heq : k.addr = a
    · obtain ⟨o, ho, hc⟩ := h.owned a (List.mem_cons_self ..)
      exact ⟨o, ho, heq ▸ hc⟩
    · exact h.lost k hk fun hlive => hgone (mem_addrs_drop.mpr ⟨hlive, heq⟩)
  · exact fun c hc => h.owned c (List.mem_cons_of_mem a hc)
  · intro c hc
    refine mem_addrs_drop.mpr ⟨h.work_live c (List.mem_cons_of_mem a hc), ?_⟩
    rintro rfl
    exact hhead hc
  · exact hnodup

theorem Cascade.release_plain (h : Cascade g₀ x g work freed m)
    (hplain : ∀ o, m.refersTo o = false) : Cascade g₀ x g work freed .null := by
  have hzero : ∀ o, pending m o = pending (.null : MValue δ) o := by
    intro o
    simp only [pending, hplain o]
    rfl
  refine ⟨h.sub, h.x_live, (fun _ ho => nomatch ho), fun o => ?_, h.pool, h.same, h.cleared,
    fun o hpos => ?_, h.doomed, h.gone, h.lost, h.owned, h.work_live, h.work_nodup⟩
  · rw [← hzero]
    exact h.count o
  · rw [← hzero]
    exact h.zero o hpos

theorem pending_self (o : ℕ) : pending (.object o : MValue δ) o = 1 := by
  simp [pending, MValue.refersTo]

theorem pending_of_ne {o o' : ℕ} (hne : o' ≠ o) : pending (.object o : MValue δ) o' = 0 := by
  simp [pending, MValue.refersTo, Ne.symm hne]

/-- An object that a handle refers to is not freed. -/
theorem Cascade.not_freed (h : Cascade g₀ x g work freed m) (hpos : 0 < g₀.refs o)
    (href : 0 < g.others x o + pending m o) : o ∉ freed := by
  intro ho
  have := (h.zero o hpos).mpr ho
  omega

/-- A count that stays positive is lowered. -/
theorem Cascade.lower (h : Cascade g₀ x g work freed (.object o))
    (hmore : (g.objects o).referenceCount ≠ 1) :
    Cascade g₀ x (g.release (.object o)).1 work freed .null := by
  have hpos := h.known o (refersTo_iff.mpr rfl)
  have hcount := h.count o
  rw [pending_self] at hcount
  have hone : (g.objects o).referenceCount.toNat ≠ 1 := by
    intro heq
    exact hmore (UInt32.toNat_inj.mp heq)
  have hfree := h.not_freed hpos (by rw [pending_self]; omega)
  have hnull : ∀ o, pending (.null : MValue δ) o = 0 := fun o => rfl
  have hrelease : (g.release (.object o)).1 = g.setObject o { g.objects o with
      referenceCount := (g.objects o).referenceCount - 1 } := by
    simp only [release, if_neg hmore]
  have hself : (g.release (.object o)).1.objects o = { g.objects o with
      referenceCount := (g.objects o).referenceCount - 1 } := by
    rw [hrelease]
    exact Function.update_self ..
  constructor
  · rw [handles_release]
    exact h.sub
  · rw [handles_release]
    exact h.x_live
  · exact fun o' ho' => by cases ho'
  · intro o'
    rw [others_release, hnull, Nat.add_zero]
    by_cases heq : o' = o
    · have hle : (1 : UInt32) ≤ (g.objects o).referenceCount := by
        rw [UInt32.le_iff_toNat_le]
        change 1 ≤ _
        omega
      have hsub := UInt32.toNat_sub_of_le _ _ hle
      have hone' : (1 : UInt32).toNat = 1 := rfl
      rw [heq, hself]
      simp only
      omega
    · rw [objects_release_of_ne heq, h.count o', pending_of_ne heq, Nat.add_zero]
  · rw [hrelease]
    exact h.pool
  · intro o' ho'
    by_cases heq : o' = o
    · rw [heq, hself]
      exact h.same o hfree
    · rw [objects_release_of_ne heq]
      exact h.same o' ho'
  · intro o' ho'
    have hne : o' ≠ o := fun heq => hfree (heq ▸ ho')
    rw [objects_release_of_ne hne]
    exact h.cleared o' ho'
  · intro o' hpos'
    rw [others_release, hnull, Nat.add_zero]
    by_cases heq : o' = o
    · rw [heq]
      constructor
      · intro hzero
        omega
      · exact fun ho => absurd ho hfree
    · rw [← h.zero o' hpos', pending_of_ne heq]
      rfl
  · exact h.doomed
  · rw [handles_release]
    exact h.gone
  · rw [handles_release]
    exact h.lost
  · exact h.owned
  · rw [handles_release]
    exact h.work_live
  · exact h.work_nodup

/-- A handle of `g₀` whose address is still there is still there with what it referred to. -/
theorem Cascade.mem_of_live (h : Cascade g₀ x g work freed m) (hk : g₀.WellFormed) {k : Handle δ}
    (hmem : k ∈ g₀.handles) (hlive : k.addr ∈ g.handles.map Handle.addr) : k ∈ g.handles := by
  obtain ⟨k', hk', heq⟩ := List.mem_map.mp hlive
  have := List.inj_on_of_nodup_map hk.keys (h.sub.subset hk') hmem heq
  exact this ▸ hk'

/-- The last handle of an object goes: the object is freed. -/
theorem Cascade.free (h : Cascade g₀ x g work freed (.object o)) (hk : g₀.WellFormed)
    (hlast : (g.objects o).referenceCount = 1) :
    Cascade g₀ x (g.release (.object o)).1 ((g.release (.object o)).2 ++ work) (freed ++ [o])
      .null := by
  have hpos := h.known o (refersTo_iff.mpr rfl)
  have hcount := h.count o
  rw [pending_self, hlast] at hcount
  have hnone : g.others x o = 0 := by
    have : (1 : UInt32).toNat = 1 := rfl
    omega
  have hfree := h.not_freed hpos (by rw [pending_self]; omega)
  have hnull : ∀ o, pending (.null : MValue δ) o = 0 := fun o => rfl
  have hchildren := (h.same o hfree).children
  have hsplit : g.release (.object o) = ({ g.setObject o (JsonObject.clear { g.objects o with
      referenceCount := (g.objects o).referenceCount - 1 }) with pool := g.pool ++ [o] },
      (g₀.objects o).children) := by
    simp only [release, if_pos hlast, hchildren]
  have hself : (g.release (.object o)).1.objects o = JsonObject.clear { g.objects o with
      referenceCount := (g.objects o).referenceCount - 1 } := by
    rw [hsplit]
    exact Function.update_self ..
  have hapart : ∀ c ∈ (g₀.objects o).children, ∀ o' ∈ freed, c ∉ (g₀.objects o').children := by
    intro c hc o' ho' hc'
    exact hfree (hk.apart o o' c hc hc' ▸ ho')
  constructor
  · rw [handles_release]
    exact h.sub
  · rw [handles_release]
    exact h.x_live
  · exact fun o' ho' => nomatch ho'
  · intro o'
    rw [others_release, hnull, Nat.add_zero]
    by_cases heq : o' = o
    · rw [heq, hself, hnone]
      simp [JsonObject.clear, hlast]
    · rw [objects_release_of_ne heq, h.count o', pending_of_ne heq, Nat.add_zero]
  · rw [hsplit, ← List.append_assoc, ← h.pool]
  · intro o' ho'
    have hne : o' ≠ o := by
      rintro rfl
      exact ho' (by simp)
    rw [objects_release_of_ne hne]
    apply h.same
    exact fun hmem => ho' (List.mem_append_left _ hmem)
  · intro o' ho'
    by_cases heq : o' = o
    · rw [heq, hself]
      rfl
    · rw [objects_release_of_ne heq]
      apply h.cleared
      simpa [heq] using ho'
  · intro o' hpos'
    rw [others_release, hnull, Nat.add_zero]
    by_cases heq : o' = o
    · simp [heq, hnone]
    · have hzero := h.zero o' hpos'
      rw [pending_of_ne heq, Nat.add_zero] at hzero
      simp [hzero, heq]
  · intro o' ho'
    rcases List.mem_append.mp ho' with ho' | ho'
    · exact h.doomed o' ho'
    obtain rfl := List.mem_singleton.mp ho'
    have hlost : ∀ k ∈ g₀.handles, k.mValue.refersTo o' → k.addr ≠ x →
        ∃ o ∈ freed, k.addr ∈ (g₀.objects o).children := by
      intro k hk' href hne
      apply h.lost k hk'
      intro hlive
      have := others_pos (h.mem_of_live hk hk' hlive) hne href
      omega
    choose! owner howner hlies using hlost
    exact HeldOnlyBy.intro owner hlies fun k hk' href hne =>
      h.doomed _ (howner k hk' href hne)
  · intro o' ho' c hc
    rw [handles_release, hsplit]
    rcases List.mem_append.mp ho' with ho' | ho'
    · rcases h.gone o' ho' c hc with hwork | hgone
      · exact Or.inl (List.mem_append_right _ hwork)
      · exact Or.inr hgone
    · obtain rfl := List.mem_singleton.mp ho'
      exact Or.inl (List.mem_append_left _ hc)
  · intro k hk' hgone
    rw [handles_release] at hgone
    obtain ⟨o', ho', hc⟩ := h.lost k hk' hgone
    exact ⟨o', List.mem_append_left _ ho', hc⟩
  · intro c hc
    rw [hsplit] at hc
    rcases List.mem_append.mp hc with hc | hc
    · exact ⟨o, by simp, hc⟩
    · obtain ⟨o', ho', hc⟩ := h.owned c hc
      exact ⟨o', List.mem_append_left _ ho', hc⟩
  · intro c hc
    rw [hsplit] at hc
    rw [handles_release]
    rcases List.mem_append.mp hc with hc | hc
    · by_contra hgone
      obtain ⟨k, hk', rfl⟩ := List.mem_map.mp (hk.live o c hc)
      obtain ⟨o', ho', hc'⟩ := h.lost k hk' hgone
      exact hapart k.addr hc o' ho' hc'
    · exact h.work_live c hc
  · rw [hsplit]
    apply List.Nodup.append (hk.nodup o) h.work_nodup
    intro c hc hwork
    obtain ⟨o', ho', hc'⟩ := h.owned c hwork
    exact hapart c hc o' ho' hc'

theorem Cascade.release (h : Cascade g₀ x g work freed m) (hk : g₀.WellFormed) :
    ∃ freed', Cascade g₀ x (g.release m).1 ((g.release m).2 ++ work) freed' .null := by
  cases m with
  | null => exact ⟨freed, h⟩
  | value v isStringFormat => exact ⟨freed, h.release_plain fun _ => rfl⟩
  | object o =>
    by_cases hlast : (g.objects o).referenceCount = 1
    · exact ⟨freed ++ [o], h.free hk hlast⟩
    · have hnone : (g.release (.object o)).2 = [] := by
        simp only [JsonGraph.release, if_neg hlast]
      rw [hnone]
      exact ⟨freed, h.lower hlast⟩

theorem handles_of_destroyAll {turns : ℕ} (h : g.destroyAll turns work = .ok g') :
    g'.handles.Sublist g.handles := by
  induction turns generalizing g work with
  | zero =>
    cases work with
    | nil =>
      cases h
      exact List.Sublist.refl _
    | cons a rest => cases h
  | succ turns ih =>
    cases work with
    | nil =>
      cases h
      exact List.Sublist.refl _
    | cons a rest =>
      cases ha : g.find a with
      | none =>
        simp only [destroyAll, read, ha] at h
        cases h
      | some m =>
        simp only [destroyAll, read, ha] at h
        have := ih h
        rw [handles_release] at this
        exact this.trans delete_sublist

/-- The loop comes to its end where no handle to destroy is `x` itself. -/
theorem Cascade.destroyAll_ok {turns : ℕ} (h : Cascade g₀ x g work freed .null)
    (hk : g₀.WellFormed) (hx : ∀ o, g₀.HeldOnlyBy x o → x ∉ (g₀.objects o).children)
    (hturns : g.handles.length ≤ turns) :
    ∃ g' freed', g.destroyAll turns work = .ok g' ∧ Cascade g₀ x g' [] freed' .null := by
  induction turns generalizing g work freed with
  | zero =>
    have hlive := h.x_live
    rw [List.length_eq_zero_iff.mp (Nat.le_zero.mp hturns)] at hlive
    cases hlive
  | succ turns ih =>
    cases work with
    | nil => exact ⟨g, freed, rfl, h⟩
    | cons a rest =>
      obtain ⟨m, ha⟩ := exists_find (h.work_live a (List.mem_cons_self ..))
      have hne : a ≠ x := by
        rintro rfl
        obtain ⟨o, ho, hc⟩ := h.owned a (List.mem_cons_self ..)
        exact hx o (h.doomed o ho) hc
      obtain ⟨freed', hnext⟩ := (h.drop hk hne ha).release hk
      have hless : (g.drop a).handles.length < g.handles.length := by
        have hperm := perm_cons_delete (hk.keys.sublist (h.sub.map _))
          ((find_eq_some_iff (hk.keys.sublist (h.sub.map _))).mp ha)
        have := hperm.length_eq
        simp only [List.length_cons] at this
        simp only [JsonGraph.drop]
        omega
      obtain ⟨g', freed'', hrun, hend⟩ := ih hnext (by rw [handles_release]; omega)
      refine ⟨g', freed'', ?_, hend⟩
      simp only [destroyAll, read, ha]
      exact hrun

/-- Where the loop comes to its end, `x` is destroyed or all that it alone keeps is. -/
theorem Cascade.of_destroyAll {turns : ℕ} (h : Cascade g₀ x g work freed .null)
    (hk : g₀.WellFormed) (hrun : g.destroyAll turns work = .ok g') :
    x ∉ g'.handles.map Handle.addr ∨ ∃ freed', Cascade g₀ x g' [] freed' .null := by
  induction turns generalizing g work freed with
  | zero =>
    cases work with
    | nil =>
      cases hrun
      exact Or.inr ⟨freed, h⟩
    | cons a rest => cases hrun
  | succ turns ih =>
    cases work with
    | nil =>
      cases hrun
      exact Or.inr ⟨freed, h⟩
    | cons a rest =>
      obtain ⟨m, ha⟩ := exists_find (h.work_live a (List.mem_cons_self ..))
      simp only [destroyAll, read, ha] at hrun
      by_cases heq : a = x
      · left
        intro hlive
        have hsub := handles_of_destroyAll hrun
        rw [handles_release] at hsub
        have := (hsub.map Handle.addr).subset hlive
        exact (mem_addrs_drop.mp this).2 heq.symm
      · obtain ⟨freed', hnext⟩ := (h.drop hk heq ha).release hk
        exact ih hnext hrun

/-- At the end every object that only `x` kept is freed. -/
theorem Cascade.mem_freed (h : Cascade g₀ x g [] freed .null) (hk : g₀.WellFormed)
    (ho : g₀.HeldOnlyBy x o) (hpos : 0 < g₀.refs o) : o ∈ freed := by
  induction ho with
  | @intro o owner lies held ih =>
    rw [← h.zero o hpos]
    by_contra hmore
    obtain ⟨k, hmem, hk'⟩ := List.countP_pos_iff.mp (Nat.pos_of_ne_zero hmore)
    simp only [Bool.and_eq_true, decide_eq_true_eq] at hk'
    have hlies := lies k (h.sub.subset hmem) hk'.2 hk'.1
    have hheld : 0 < g₀.refs (owner k) := by
      by_contra hnone
      rw [hk.held (owner k) (by omega)] at hlies
      cases hlies
    have hfreed := ih k (h.sub.subset hmem) hk'.2 hk'.1 hheld
    rcases h.gone (owner k) hfreed k.addr hlies with hwork | hgone
    · cases hwork
    · exact hgone (List.mem_map_of_mem hmem)

/-- The handles that are left at the end are those in no object that only `x` kept. -/
theorem Cascade.live_iff (h : Cascade g₀ x g [] freed .null) (hk : g₀.WellFormed)
    (ha : a ∈ g₀.handles.map Handle.addr) :
    a ∈ g.handles.map Handle.addr ↔ ∀ o, g₀.HeldOnlyBy x o → a ∉ (g₀.objects o).children := by
  constructor
  · intro hlive o ho hc
    have hpos : 0 < g₀.refs o := by
      by_contra hnone
      rw [hk.held o (by omega)] at hc
      cases hc
    rcases h.gone o (h.mem_freed hk ho hpos) a hc with hwork | hgone
    · cases hwork
    · exact hgone hlive
  · intro hfree
    by_contra hgone
    obtain ⟨k, hmem, rfl⟩ := List.mem_map.mp ha
    obtain ⟨o, ho, hc⟩ := h.lost k hmem hgone
    exact hfree o (h.doomed o ho) hc

end Loop

end OrderBookServer.JsonGraph
