import OrderBookServer.HeapInvariant

/-!
The release of what a handle refers to, in a heap without cycles: it never comes back to the handle
itself, every object that it frees goes to the pool once, and variables survive it.
-/
namespace OrderBookServer.JsonGraph

open Relation

variable {δ : Type} {size : ℕ} {g₀ g g₁ g' : JsonGraph δ} {a c o x y : ℕ}
  {work freed : List ℕ} {m : MValue δ}

/-- The pool has what it had and objects that were in use, each of them once. -/
structure PoolKept (g₀ g : JsonGraph δ) : Prop where
  nodup : g.pool.Nodup
  used : ∀ o ∈ g.pool, o ∈ g₀.pool ∨ 0 < g₀.refs o

section Loop

theorem Cascade.poolKept_release (h : Cascade g₀ x g work freed m) (hk : g₀.WellFormed)
    (hpool : PoolKept g₀ g) : PoolKept g₀ (g.release m).1 := by
  cases m with
  | null => exact hpool
  | value v isStringFormat => exact hpool
  | object o =>
    have hused := h.known o (refersTo_iff.mpr rfl)
    by_cases hlast : (g.objects o).referenceCount = 1
    · have hnew : o ∉ g.pool := by
        rw [h.pool, List.mem_append]
        rintro (hpooled | hfreed)
        · have := hk.pooled o hpooled
          omega
        · exact h.not_freed hused (by rw [pending_self]; omega) hfreed
      have heq : (g.release (.object o)).1.pool = g.pool ++ [o] := by
        simp only [JsonGraph.release, if_pos hlast]
      constructor
      · rw [heq]
        refine hpool.nodup.append (List.nodup_singleton o) fun p hp ho => ?_
        exact hnew (List.mem_singleton.mp ho ▸ hp)
      · intro p hp
        rw [heq, List.mem_append] at hp
        rcases hp with hp | hp
        · exact hpool.used p hp
        · exact Or.inr (List.mem_singleton.mp hp ▸ hused)
    · have heq : (g.release (.object o)).1.pool = g.pool := by
        simp only [JsonGraph.release, if_neg hlast]
        rfl
      constructor
      · rw [heq]
        exact hpool.nodup
      · rw [heq]
        exact hpool.used

theorem Cascade.poolKept {turns : ℕ} (h : Cascade g₀ x g work freed .null) (hk : g₀.WellFormed)
    (hx : ∀ o, g₀.HeldOnlyBy x o → x ∉ (g₀.objects o).children) (hpool : PoolKept g₀ g)
    (hrun : g.destroyAll turns work = .ok g') : PoolKept g₀ g' := by
  induction turns generalizing g work freed with
  | zero =>
    cases work with
    | nil =>
      cases hrun
      exact hpool
    | cons a rest => cases hrun
  | succ turns ih =>
    cases work with
    | nil =>
      cases hrun
      exact hpool
    | cons a rest =>
      obtain ⟨m, ha⟩ := exists_find (h.work_live a (List.mem_cons_self ..))
      have hne : a ≠ x := by
        rintro rfl
        obtain ⟨o, ho, hc⟩ := h.owned a (List.mem_cons_self ..)
        exact hx o (h.doomed o ho) hc
      have hdrop := h.drop hk hne ha
      obtain ⟨freed', hnext⟩ := hdrop.release hk
      simp only [destroyAll, read, ha] at hrun
      exact ih hnext (hdrop.poolKept_release hk ⟨hpool.nodup, hpool.used⟩) hrun

end Loop

section Reaching

/-- An object that only `x` keeps can be got at from `x`. -/
theorem HeldOnlyBy.reached (hk : g.WellFormed) (h : g.HeldOnlyBy x o) (hpos : 0 < g.refs o) :
    ∃ q, g.find x = some (.object q) ∧ ReflTransGen g.Holds q o := by
  induction h with
  | @intro o owner lies held ih =>
    obtain ⟨a, ha⟩ := exists_of_refs_pos hk.keys hpos
    have hmem := (find_eq_some_iff hk.keys).mp ha
    have href : (MValue.object o : MValue δ).refersTo o := refersTo_iff.mpr rfl
    by_cases heq : a = x
    · exact ⟨o, heq ▸ ha, ReflTransGen.refl⟩
    · have hlies := lies _ hmem href heq
      obtain ⟨q, hq, hpath⟩ := ih _ hmem href heq (hk.refs_pos_of_child hlies)
      exact ⟨q, hq, hpath.tail ⟨a, hlies, ha⟩⟩

/-- A release never destroys the handle that is released. -/
theorem Sound.outlives_self (h : Sound size g) (x : ℕ) : g.Outlives x x := by
  intro o ho hx
  obtain ⟨q, hq, hpath⟩ := ho.reached h.wellFormed (h.wellFormed.refs_pos_of_child hx)
  exact h.acyclic q (TransGen.tail' hpath ⟨x, hx, hq⟩)

end Reaching

section Released

/-- A release comes to its end. -/
theorem Sound.releaseAt_ok (h : Sound size g) (hx : g.Live x) : ∃ g₁ freed,
    g.releaseAt x = .ok g₁ ∧ Cascade g x g₁ [] freed .null ∧ PoolKept g g₁ := by
  obtain ⟨m, hm⟩ := exists_find hx
  have hstart := h.wellFormed.cascade hm
  have hkept : PoolKept g (g.release m).1 :=
    hstart.poolKept_release h.wellFormed ⟨h.pool_nodup, fun o ho => Or.inl ho⟩
  obtain ⟨freed, hloop⟩ := hstart.release h.wellFormed
  rw [List.append_nil] at hloop
  obtain ⟨g₁, freed', hrun, hend⟩ :=
    hloop.destroyAll_ok h.wellFormed (h.outlives_self x) (Nat.le_refl _)
  have hpool := hloop.poolKept h.wellFormed (h.outlives_self x) hkept hrun
  refine ⟨g₁, freed', ?_, hend, hpool⟩
  simp only [releaseAt, read_of_find hm]
  exact hrun

theorem Cascade.mem_children (h : Cascade g x g₁ [] freed .null)
    (hc : c ∈ (g₁.objects o).children) : o ∉ freed ∧ c ∈ (g.objects o).children := by
  by_cases ho : o ∈ freed
  · rw [h.cleared o ho] at hc
    cases hc
  · exact ⟨ho, (h.same o ho).children ▸ hc⟩

theorem Cascade.find_of_find (h : Cascade g x g₁ [] freed .null) (hk : g.WellFormed)
    (ha : g₁.find a = some m) : g.find a = some m := by
  rw [find_eq_some_iff (hk.keys.sublist (h.sub.map _))] at ha
  rw [find_eq_some_iff hk.keys]
  exact h.sub.subset ha

theorem Cascade.live_of_outlives (h : Cascade g x g₁ [] freed .null) (hk : g.WellFormed)
    (ha : g.Live a) (hout : g.Outlives x a) : g₁.Live a := (h.live_iff hk ha).mpr hout

/-- Variables survive the release of another handle. -/
theorem Cascade.keeps_variable (h : Cascade g x g₁ [] freed .null) (hk : g.WellFormed)
    (ha : g.Variable a) : g₁.Variable a :=
  ⟨h.live_of_outlives hk ha.1 fun o _ => ha.2 o, fun o hc => ha.2 o (h.mem_children hc).2⟩

/-- Nothing can be got at after a release that could not be got at before. -/
theorem Cascade.within (h : Cascade g x g₁ [] freed .null) (hk : g.WellFormed)
    (hin : g₁.Within o a) : g.Within o a := by
  obtain ⟨p, hpath, hc⟩ := hin
  refine ⟨p, ReflTransGen.mono ?_ o p hpath, (h.mem_children hc).2⟩
  rintro q q' ⟨c, hc, href⟩
  exact ⟨c, (h.mem_children hc).2, h.find_of_find hk href⟩

/-- The heap is sound again when the released handle refers to no object. -/
theorem Sound.released (h : Sound size g) (hend : Cascade g x g₁ [] freed .null)
    (hpool : PoolKept g g₁) (hplain : MValue.IsPlain m) (hwrite : g₁.write x m = .ok g') :
    Sound size g' := by
  obtain ⟨haddrs, hobjects, hpool'⟩ := addrs_of_write hwrite
  have hkeys : (g₁.handles.map Handle.addr).Nodup := h.wellFormed.keys.sublist (hend.sub.map _)
  have hkeys' : (g'.handles.map Handle.addr).Nodup := haddrs ▸ hkeys
  have hx' : g'.find x = some m := by rw [find_of_write hwrite, if_pos rfl]
  have hrefs : ∀ o, g'.refs o = g₁.others x o := by
    intro o
    have hsplit := refs_eq_others hkeys' ((find_eq_some_iff hkeys').mp hx') o
    rw [pending_of_isPlain hplain, Nat.add_zero] at hsplit
    rw [hsplit, others_write hwrite]
  have hfind : ∀ c q, g'.find c = some (.object q) → c ≠ x ∧ g₁.find c = some (.object q) := by
    intro c q hc
    rw [find_of_write hwrite] at hc
    by_cases heq : c = x
    · rw [if_pos heq] at hc
      exact absurd (Option.some.inj hc) (hplain q)
    · rw [if_neg heq] at hc
      exact ⟨heq, hc⟩
  have hsafe : ∀ k ∈ g'.handles, ∀ o ∈ g'.pool, k.mValue.refersTo o = false :=
    hend.safe h.wellFormed hkeys' hpool' fun c q hc => ⟨c, hfind c q hc⟩
  have hless : ∀ o, g'.refs o ≤ g.refs o := by
    intro o
    rw [hrefs]
    refine Nat.le_trans (List.countP_mono_left fun k _ hk => ?_) (hend.sub.countP_le)
    simp only [Bool.and_eq_true] at hk
    exact hk.2
  have hwf : g'.WellFormed := by
    refine hend.wellFormed h.wellFormed haddrs (fun o => ?_) (fun o => ?_) (fun o => ?_) hsafe
    · rw [hobjects]
      exact ⟨rfl, rfl, rfl⟩
    · rw [hobjects, hrefs]
      exact hend.count o
    · rw [hrefs]
  refine ⟨hwf, ?_, fun o => ⟨fun ho => ⟨?_, hwf.pooled o ho⟩, ?_⟩, fun o ho => ?_, fun o => ?_,
    h.acyclic.mono ?_⟩
  · rw [hpool']
    exact hpool.nodup
  · rw [hpool'] at ho
    rcases hpool.used o ho with hold | hused
    · exact ((h.mem_pool o).mp hold).1
    · exact h.known o hused
  · rintro ⟨hlt, hnone⟩
    rw [hpool', hend.pool, List.mem_append]
    by_cases hused : 0 < g.refs o
    · refine Or.inr ((hend.zero o hused).mp ?_)
      rw [hrefs] at hnone
      exact hnone
    · exact Or.inl ((h.mem_pool o).mpr ⟨hlt, by omega⟩)
  · exact h.known o (Nat.lt_of_lt_of_le ho (hless o))
  · rw [hobjects]
    by_cases ho : o ∈ freed
    · have hnil := hend.cleared o ho
      unfold JsonObject.children at hnil
      rw [(List.append_eq_nil_iff.mp hnil).1 |> List.map_eq_nil_iff.mp]
      exact List.nodup_nil
    · rw [(hend.same o ho).2.1]
      exact h.keys o
  · rintro p q ⟨c, hc, href⟩
    rw [hobjects] at hc
    obtain ⟨-, href₁⟩ := hfind c q href
    exact ⟨c, (hend.mem_children hc).2, hend.find_of_find h.wellFormed href₁⟩

end Released

section Destroying

theorem drop_of_write (h : g₁.write x m = .ok g') : g'.drop x = g₁.drop x := by
  obtain ⟨m', hm'⟩ := exists_find (mem_addrs_of_write h)
  simp only [write, hm'] at h
  cases h
  simp only [drop]
  rw [KeyedList.delete_update]
  exact fun _ => rfl

/-- A variable is destroyed: the others stay variables. -/
theorem Sound.destroy (h : Sound size g) (hx : g.Variable x) : ∃ g', g.destroy x = .ok g' ∧
    Sound size g' ∧ ∀ c, c ≠ x → g.Variable c → g'.Variable c := by
  obtain ⟨g₁, freed, hrun, hend, hpool⟩ := h.releaseAt_ok hx.1
  obtain ⟨g₂, hwrite, hfind, haddrs, hobjects, -⟩ := exists_write hend.x_live .null
  have hsound := h.released hend hpool isPlain_null hwrite
  have hx₂ : g₂.find x = some .null := by rw [hfind, if_pos rfl]
  have hvar₂ : ∀ o, x ∉ (g₂.objects o).children := by
    intro o hc
    rw [hobjects] at hc
    exact hx.2 o (hend.mem_children hc).2
  refine ⟨g₁.drop x, ?_, drop_of_write hwrite ▸ hsound.drop hx₂ isPlain_null hvar₂,
    fun c hne hc => ?_⟩
  · simp only [JsonGraph.destroy, handleFault, hrun]
    rfl
  · obtain ⟨hlive, hvar⟩ := hend.keeps_variable h.wellFormed hc
    exact ⟨mem_addrs_drop.mpr ⟨hlive, hne⟩, hvar⟩

theorem Sound.destroyEach (h : Sound size g) {cs : List ℕ} (hnodup : cs.Nodup)
    (hcs : ∀ c ∈ cs, g.Variable c) : ∃ g', destroyEach cs g = .ok g' ∧ Sound size g' := by
  induction cs generalizing g with
  | nil => exact ⟨g, rfl, h⟩
  | cons c cs ih =>
    obtain ⟨hhead, hnodup⟩ := List.nodup_cons.mp hnodup
    obtain ⟨g₁, hrun, hsound, hkeep⟩ := h.destroy (hcs c (List.mem_cons_self ..))
    obtain ⟨g', hrest, hsound'⟩ := ih hsound hnodup fun c' hc' => by
      refine hkeep c' ?_ (hcs c' (List.mem_cons_of_mem c hc'))
      rintro rfl
      exact hhead hc'
    refine ⟨g', ?_, hsound'⟩
    simp only [JsonGraph.destroyEach, hrun]
    exact hrest

end Destroying

end OrderBookServer.JsonGraph
