import OrderBookServer.JsonTree

/-!
The assignments of a handle. Each releases what the handle refers to before it reads the source,
so the source is taken over where it outlives the release and the handle does not come to lie in
the tree that it takes over.
-/
namespace OrderBookServer.JsonGraph

open KeyedList

variable {δ : Type}

/-- The handle is in no object that only `x` keeps. -/
def Outlives (g : JsonGraph δ) (x a : ℕ) : Prop :=
  ∀ o, g.HeldOnlyBy x o → a ∉ (g.objects o).children

/-- The release of `x` leaves both handles, and `x` is not in the tree of `y`. -/
def Apart (g : JsonGraph δ) (x y : ℕ) : Prop :=
  g.Outlives x x ∧ g.Outlives x y ∧
    ∀ o, g.find y = some (.object o) → (∃ t, g.Denotes y t) → ¬ g.Inside o x

/-- The assignment comes to its end, the target denotes what the source denoted, and no handle
refers to an object in the pool. -/
def Transfers (assign : JsonGraph δ → ℕ → ℕ → Except HandleFault (JsonGraph δ))
    (g : JsonGraph δ) (x y : ℕ) : Prop :=
  ∃ g', assign g x y = .ok g' ∧ (∀ t, g.Denotes y t → g'.Denotes x t) ∧
    ∀ h ∈ g'.handles, ∀ o ∈ g'.pool, h.mValue.refersTo o = false

/-- What an assignment leaves in `g'`. -/
structure Placed (g : JsonGraph δ) (x y : ℕ) (g' : JsonGraph δ) : Prop where
  target : g'.find x = g.find y
  kept : ∀ a, a ≠ x → a ≠ y → g.Outlives x a → g'.find a = g.find a
  same : ∀ o, ¬ g.HeldOnlyBy x o → (g'.objects o).Same (g.objects o)
  safe : ∀ h ∈ g'.handles, ∀ o ∈ g'.pool, h.mValue.refersTo o = false

section Steps

variable {g₀ g g' : JsonGraph δ} {a b x y o : ℕ} {m : MValue δ} {freed : List ℕ}

theorem exists_write (ha : a ∈ g.handles.map Handle.addr) (m : MValue δ) :
    ∃ g', g.write a m = .ok g' ∧ (∀ b, g'.find b = if b = a then some m else g.find b) ∧
      g'.handles.map Handle.addr = g.handles.map Handle.addr ∧ g'.objects = g.objects ∧
      g'.pool = g.pool := by
  obtain ⟨m', hm'⟩ := exists_find ha
  refine ⟨{ g with handles := update Handle.addr g.handles a fun h => { h with mValue := m } },
    ?_, fun b => ?_, keys_update fun _ => rfl, rfl, rfl⟩
  · simp only [write, hm']
    rfl
  · have hupdate : ∀ h : Handle δ, Handle.addr { h with mValue := m } = Handle.addr h :=
      fun _ => rfl
    rw [find, KeyedList.find_update hupdate]
    by_cases heq : b = a
    · unfold find at hm'
      obtain ⟨k, hk, -⟩ := Option.map_eq_some_iff.mp hm'
      simp [heq, hk]
    · simp only [heq, if_false]
      rfl

theorem mem_addrs_of_write (h : g.write a m = .ok g') : a ∈ g.handles.map Handle.addr := by
  by_contra hgone
  simp only [write, find_eq_none_iff.mpr hgone] at h
  cases h

theorem find_of_write (h : g.write a m = .ok g') (b : ℕ) :
    g'.find b = if b = a then some m else g.find b := by
  obtain ⟨g'', hrun, hfind, -⟩ := exists_write (mem_addrs_of_write h) m
  rw [h] at hrun
  cases hrun
  exact hfind b

theorem addrs_of_write (h : g.write a m = .ok g') :
    g'.handles.map Handle.addr = g.handles.map Handle.addr ∧ g'.objects = g.objects ∧
      g'.pool = g.pool := by
  obtain ⟨g'', hrun, -, hrest⟩ := exists_write (mem_addrs_of_write h) m
  rw [h] at hrun
  cases hrun
  exact hrest

theorem find_of_read (h : g.read a = .ok m) : g.find a = some m := by
  cases hfind : g.find a with
  | none =>
    simp only [read, hfind] at h
    cases h
  | some m' =>
    simp only [read, hfind] at h
    cases h
    rfl

theorem read_of_find (h : g.find a = some m) : g.read a = .ok m := by
  simp only [read, h]
  rfl

theorem getCopy_fst (g : JsonGraph δ) (m : MValue δ) : (g.getCopy m).1 = m := by
  cases m with
  | null => rfl
  | value v isStringFormat => rfl
  | object o => rfl

theorem handles_getCopy (g : JsonGraph δ) (m : MValue δ) :
    (g.getCopy m).2.handles = g.handles := by
  cases m with
  | null => rfl
  | value v isStringFormat => rfl
  | object o => rfl

theorem pool_getCopy (g : JsonGraph δ) (m : MValue δ) : (g.getCopy m).2.pool = g.pool := by
  cases m with
  | null => rfl
  | value v isStringFormat => rfl
  | object o => rfl

theorem objects_getCopy (g : JsonGraph δ) (m : MValue δ) (o : ℕ) :
    ((g.getCopy m).2.objects o).Same (g.objects o) := by
  cases m with
  | null => exact ⟨rfl, rfl, rfl⟩
  | value v isStringFormat => exact ⟨rfl, rfl, rfl⟩
  | object o' =>
    by_cases heq : o = o'
    · simp [getCopy, setObject, heq, JsonObject.Same]
    · simp [getCopy, setObject, heq, JsonObject.Same]

theorem find_getCopy (g : JsonGraph δ) (m : MValue δ) (a : ℕ) :
    (g.getCopy m).2.find a = g.find a := by
  unfold find
  rw [handles_getCopy]

end Steps

section Releasing

variable {g₀ g g' : JsonGraph δ} {a x y o : ℕ} {m : MValue δ} {freed : List ℕ}

theorem releaseAt_ok (hk : g.WellFormed) (hx : x ∈ g.handles.map Handle.addr)
    (hout : g.Outlives x x) :
    ∃ g' freed, g.releaseAt x = .ok g' ∧ Cascade g x g' [] freed .null := by
  obtain ⟨m, hm⟩ := exists_find hx
  obtain ⟨freed, hstart⟩ := (hk.cascade hm).release hk
  rw [List.append_nil] at hstart
  obtain ⟨g', freed', hrun, hend⟩ := hstart.destroyAll_ok hk hout (Nat.le_refl _)
  refine ⟨g', freed', ?_, hend⟩
  simp only [releaseAt, read_of_find hm]
  exact hrun

theorem of_releaseAt (hk : g.WellFormed) (hx : x ∈ g.handles.map Handle.addr)
    (h : g.releaseAt x = .ok g') :
    x ∉ g'.handles.map Handle.addr ∨ ∃ freed, Cascade g x g' [] freed .null := by
  obtain ⟨m, hm⟩ := exists_find hx
  obtain ⟨freed, hstart⟩ := (hk.cascade hm).release hk
  rw [List.append_nil] at hstart
  simp only [releaseAt, read_of_find hm] at h
  exact hstart.of_destroyAll hk h

/-- What is still there after a release outlives it. -/
theorem outlives_of_releaseAt (hk : g.WellFormed) (hx : x ∈ g.handles.map Handle.addr)
    (h : g.releaseAt x = .ok g') (hx' : x ∈ g'.handles.map Handle.addr)
    (ha : a ∈ g.handles.map Handle.addr) (ha' : a ∈ g'.handles.map Handle.addr) :
    g.Outlives x a := by
  rcases of_releaseAt hk hx h with hgone | ⟨freed, hend⟩
  · exact absurd hx' hgone
  · exact (hend.live_iff hk ha).mp ha'

theorem Cascade.find_eq (h : Cascade g₀ x g [] freed .null) (hk : g₀.WellFormed)
    (ha : g₀.Outlives x a) : g.find a = g₀.find a := by
  cases hfind : g₀.find a with
  | none =>
    rw [find_eq_none_iff] at hfind ⊢
    exact fun hlive => hfind ((h.sub.map Handle.addr).subset hlive)
  | some m =>
    have hlive := (h.live_iff hk (mem_addrs_of_find hfind)).mpr ha
    rw [find_eq_some_iff hk.keys] at hfind
    rw [find_eq_some_iff (hk.keys.sublist (h.sub.map _))]
    exact h.mem_of_live hk hfind hlive

theorem Cascade.not_pooled (h : Cascade g₀ x g [] freed .null) (hk : g₀.WellFormed)
    (hne : a ≠ x) (ha : g.find a = some (.object o)) : o ∉ g.pool := by
  have hmem := (find_eq_some_iff (hk.keys.sublist (h.sub.map _))).mp ha
  have href : (MValue.object o : MValue δ).refersTo o := refersTo_iff.mpr rfl
  have hothers := others_pos hmem hne href
  have hrefs := refs_pos (h.sub.subset hmem) href
  rw [h.pool]
  intro hpool
  rcases List.mem_append.mp hpool with hpool | hfreed
  · have := hk.pooled o hpool
    omega
  · have := (h.zero o hrefs).mpr hfreed
    omega

/-- The handles of `g'` refer to what handles of `g` other than `x` refer to. -/
theorem Cascade.safe (h : Cascade g₀ x g [] freed .null) (hk : g₀.WellFormed)
    (hkeys : (g'.handles.map Handle.addr).Nodup) (hpool : g'.pool = g.pool)
    (hfind : ∀ a o, g'.find a = some (.object o) → ∃ b ≠ x, g.find b = some (.object o)) :
    ∀ k ∈ g'.handles, ∀ o ∈ g'.pool, k.mValue.refersTo o = false := by
  intro k hmem o ho
  by_contra href
  rw [Bool.not_eq_false, refersTo_iff] at href
  obtain ⟨b, hb, hfind⟩ := hfind k.addr o ((find_eq_some_iff hkeys).mpr (href ▸ hmem))
  rw [hpool] at ho
  exact h.not_pooled hk hb hfind ho

end Releasing

section Assigning

variable {g g' : JsonGraph δ} {x y : ℕ}

theorem copyAssign_ok (hk : g.WellFormed) (hx : x ∈ g.handles.map Handle.addr)
    (hy : y ∈ g.handles.map Handle.addr) (hne : x ≠ y) (hox : g.Outlives x x)
    (hoy : g.Outlives x y) : ∃ g', g.copyAssign x y = .ok g' ∧ g.Placed x y g' := by
  obtain ⟨g₁, freed, hrun, hend⟩ := releaseAt_ok hk hx hox
  obtain ⟨m, hm⟩ := exists_find hy
  have hm₁ : g₁.find y = some m := (hend.find_eq hk hoy).trans hm
  have hlive : x ∈ (g₁.getCopy m).2.handles.map Handle.addr := by
    rw [handles_getCopy]
    exact hend.x_live
  obtain ⟨g', hwrite, hfind, hkeys, hobjects, hpool⟩ := exists_write hlive m
  refine ⟨g', ?_, ⟨?_, fun a hax hay ha => ?_, fun o ho => ?_, ?_⟩⟩
  · simp only [copyAssign, if_neg hne, hrun]
    change (g₁.read y >>= fun source =>
      (g₁.getCopy source).2.write x (g₁.getCopy source).1) = .ok g'
    rw [read_of_find hm₁]
    change (g₁.getCopy m).2.write x (g₁.getCopy m).1 = .ok g'
    rw [getCopy_fst, hwrite]
  · rw [hfind, if_pos rfl, hm]
  · rw [hfind, if_neg hax, find_getCopy, hend.find_eq hk ha]
  · rw [hobjects]
    have hsame := hend.same o fun hfreed => ho (hend.doomed o hfreed)
    exact (objects_getCopy g₁ m o).trans hsame
  · refine hend.safe hk ?_ (hpool.trans (pool_getCopy g₁ m)) fun a o ha => ?_
    · rw [hkeys, handles_getCopy]
      exact hk.keys.sublist (hend.sub.map _)
    · rw [hfind, find_getCopy] at ha
      by_cases heq : a = x
      · rw [if_pos heq] at ha
        exact ⟨y, Ne.symm hne, hm₁.trans ha⟩
      · rw [if_neg heq] at ha
        exact ⟨a, heq, ha⟩

theorem moveAssign_ok (hk : g.WellFormed) (hx : x ∈ g.handles.map Handle.addr)
    (hy : y ∈ g.handles.map Handle.addr) (hne : x ≠ y) (hox : g.Outlives x x)
    (hoy : g.Outlives x y) : ∃ g', g.moveAssign x y = .ok g' ∧ g.Placed x y g' := by
  obtain ⟨g₁, freed, hrun, hend⟩ := releaseAt_ok hk hx hox
  obtain ⟨m, hm⟩ := exists_find hy
  have hm₁ : g₁.find y = some m := (hend.find_eq hk hoy).trans hm
  obtain ⟨g₂, hwrite, hfind₂, hkeys₂, hobjects₂, hpool₂⟩ := exists_write hend.x_live m
  have hlive : y ∈ g₂.handles.map Handle.addr := by
    rw [hkeys₂]
    exact mem_addrs_of_find hm₁
  obtain ⟨g', hwrite', hfind, hkeys, hobjects, hpool⟩ := exists_write hlive .null
  refine ⟨g', ?_, ⟨?_, fun a hax hay ha => ?_, fun o ho => ?_, ?_⟩⟩
  · simp only [moveAssign, if_neg hne, hrun]
    change (g₁.read y >>= fun source => g₁.write x source >>= fun g => g.write y .null) = .ok g'
    rw [read_of_find hm₁]
    change (g₁.write x m >>= fun g => g.write y .null) = .ok g'
    rw [hwrite]
    exact hwrite'
  · rw [hfind, if_neg hne, hfind₂, if_pos rfl, hm]
  · rw [hfind, if_neg hay, hfind₂, if_neg hax, hend.find_eq hk ha]
  · rw [hobjects, hobjects₂]
    exact hend.same o fun hfreed => ho (hend.doomed o hfreed)
  · refine hend.safe hk ?_ (hpool.trans hpool₂) fun a o ha => ?_
    · rw [hkeys, hkeys₂]
      exact hk.keys.sublist (hend.sub.map _)
    · rw [hfind, hfind₂] at ha
      by_cases heqy : a = y
      · rw [if_pos heqy] at ha
        cases ha
      rw [if_neg heqy] at ha
      by_cases heq : a = x
      · rw [if_pos heq] at ha
        exact ⟨y, Ne.symm hne, hm₁.trans ha⟩
      · rw [if_neg heq] at ha
        exact ⟨a, heq, ha⟩

/-- What a copy assignment to another handle does where it comes to its end. -/
theorem copyAssign_cases (hne : x ≠ y) (h : g.copyAssign x y = .ok g') :
    ∃ g₁ m, g.releaseAt x = .ok g₁ ∧ g₁.find y = some m ∧
      (g₁.getCopy m).2.write x m = .ok g' := by
  simp only [copyAssign, if_neg hne] at h
  cases hrun : g.releaseAt x with
  | error fault =>
    rw [hrun] at h
    cases h
  | ok g₁ =>
    rw [hrun] at h
    change (g₁.read y >>= fun source =>
      (g₁.getCopy source).2.write x (g₁.getCopy source).1) = .ok g' at h
    cases hread : g₁.read y with
    | error fault =>
      rw [hread] at h
      cases h
    | ok m =>
      rw [hread] at h
      refine ⟨g₁, m, rfl, find_of_read hread, ?_⟩
      rw [← h]
      exact congrArg ((g₁.getCopy m).2.write x) (getCopy_fst g₁ m).symm

/-- What a move assignment to another handle does where it comes to its end. -/
theorem moveAssign_cases (hne : x ≠ y) (h : g.moveAssign x y = .ok g') :
    ∃ g₁ m g₂, g.releaseAt x = .ok g₁ ∧ g₁.find y = some m ∧ g₁.write x m = .ok g₂ ∧
      g₂.write y .null = .ok g' := by
  simp only [moveAssign, if_neg hne] at h
  cases hrun : g.releaseAt x with
  | error fault =>
    rw [hrun] at h
    cases h
  | ok g₁ =>
    rw [hrun] at h
    change (g₁.read y >>= fun source => g₁.write x source >>= fun g => g.write y .null) = .ok g'
      at h
    cases hread : g₁.read y with
    | error fault =>
      rw [hread] at h
      cases h
    | ok m =>
      rw [hread] at h
      change (g₁.write x m >>= fun g => g.write y .null) = .ok g' at h
      cases hwrite : g₁.write x m with
      | error fault =>
        rw [hwrite] at h
        cases h
      | ok g₂ =>
        rw [hwrite] at h
        exact ⟨g₁, m, g₂, rfl, find_of_read hread, hwrite, h⟩

theorem outlives_of_copyAssign (hk : g.WellFormed) (hx : x ∈ g.handles.map Handle.addr)
    (hy : y ∈ g.handles.map Handle.addr) (hne : x ≠ y) (h : g.copyAssign x y = .ok g') :
    g.Outlives x x ∧ g.Outlives x y := by
  obtain ⟨g₁, m, hrun, hfind, hwrite⟩ := copyAssign_cases hne h
  have hlive := mem_addrs_of_write hwrite
  rw [handles_getCopy] at hlive
  exact ⟨outlives_of_releaseAt hk hx hrun hlive hx hlive,
    outlives_of_releaseAt hk hx hrun hlive hy (mem_addrs_of_find hfind)⟩

theorem outlives_of_moveAssign (hk : g.WellFormed) (hx : x ∈ g.handles.map Handle.addr)
    (hy : y ∈ g.handles.map Handle.addr) (hne : x ≠ y) (h : g.moveAssign x y = .ok g') :
    g.Outlives x x ∧ g.Outlives x y := by
  obtain ⟨g₁, m, g₂, hrun, hfind, hwrite, -⟩ := moveAssign_cases hne h
  have hlive := mem_addrs_of_write hwrite
  exact ⟨outlives_of_releaseAt hk hx hrun hlive hx hlive,
    outlives_of_releaseAt hk hx hrun hlive hy (mem_addrs_of_find hfind)⟩

end Assigning

section Trees

variable {g g' : JsonGraph δ} {a c x y o : ℕ} {t : Json δ}

theorem not_heldOnlyBy (hk : g.WellFormed) (hne : a ≠ x) (hout : g.Outlives x a)
    (ha : g.find a = some (.object o)) : ¬ g.HeldOnlyBy x o := by
  rintro ⟨owner, lies, held⟩
  have hmem := (find_eq_some_iff hk.keys).mp ha
  have href : (MValue.object o : MValue δ).refersTo o := refersTo_iff.mpr rfl
  exact hout _ (held _ hmem href hne) (lies _ hmem href hne)

theorem outlives_of_shown (hk : g.WellFormed) (ho : ¬ g.HeldOnlyBy x o)
    (hc : c ∈ (g.objects o).shown) : g.Outlives x c := by
  intro o' ho' hc'
  have := hk.apart o o' c (JsonObject.mem_children_of_shown hc) hc'
  exact ho (this ▸ ho')

/-- What a tree holds outlives the release of a handle that is not inside it. -/
theorem outlives_of_inside (hk : g.WellFormed) (ho : ¬ g.HeldOnlyBy x o) (hx : ¬ g.Inside o x)
    (ha : g.Inside o a) : g.Outlives x a := by
  induction ha with
  | child ha => exact outlives_of_shown hk ho ha
  | @step a b o' hb href ha ih =>
    have hne : b ≠ x := by
      rintro rfl
      exact hx hb
    exact outlives_of_shown hk (not_heldOnlyBy hk hne ih href) ha

theorem Placed.denotes (h : g.Placed x y g') (hk : g.WellFormed) (hne : x ≠ y)
    (hout : g.Outlives x y) (ht : g.Denotes y t)
    (hx : ∀ o, g.find y = some (.object o) → ¬ g.Inside o x) : g'.Denotes x t := by
  obtain ⟨depth, htree⟩ := ht
  cases depth with
  | zero => cases htree
  | succ depth =>
    refine ⟨depth + 1, ?_⟩
    rw [← htree]
    have hheld : ∀ o, g.find y = some (.object o) → ¬ g.HeldOnlyBy x o :=
      fun o => not_heldOnlyBy hk (Ne.symm hne) hout
    refine tree_of_find h.target (fun o hy => h.same o (hheld o hy)) fun o hy c hc => ?_
    have hnotx : ∀ a, g.Inside o a → a ≠ x := by
      rintro a ha rfl
      exact hx o hy ha
    have hnoty : ∀ a, g.Inside o a → a ≠ y := by
      rintro a ha rfl
      exact not_denotes_of_inside hy ha ⟨depth + 1, htree⟩
    have hlive : ∀ a, g.Inside o a → g.Outlives x a :=
      fun a => outlives_of_inside hk (hheld o hy) (hx o hy)
    have hfind : ∀ a, g.Inside o a → g'.find a = g.find a :=
      fun a ha => h.kept a (hnotx a ha) (hnoty a ha) (hlive a ha)
    exact tree_congr hfind
      (fun a o' ha href => h.same o' (not_heldOnlyBy hk (hnotx a ha) (hlive a ha) href))
      (fun a o' ha href c hc => Inside.step ha href hc) (Inside.child hc)

/-- A target inside the tree of the source comes to lie inside its own tree. -/
theorem Placed.not_denotes (h : g.Placed x y g') (hk : g.WellFormed) (hne : x ≠ y)
    (hout : g.Outlives x y) (ht : g.Denotes y t) (hy : g.find y = some (.object o))
    (hx : g.Inside o x) : ¬ g'.Denotes x t := by
  have hheld := not_heldOnlyBy hk (Ne.symm hne) hout hy
  have hinside : ∀ a, g.Inside o a → g'.Inside o x ∨ g'.Inside o a ∧ g.Outlives x a := by
    intro a ha
    induction ha with
    | child ha =>
      refine Or.inr ⟨Inside.child ?_, outlives_of_shown hk hheld ha⟩
      rw [(h.same o hheld).shown]
      exact ha
    | @step a b o' hb href ha ih =>
      rcases ih with ih | ⟨ih, hb'⟩
      · exact Or.inl ih
      by_cases heq : b = x
      · exact Or.inl (heq ▸ ih)
      have hby : b ≠ y := by
        rintro rfl
        exact not_denotes_of_inside hy hb ht
      have hheld' := not_heldOnlyBy hk heq hb' href
      refine Or.inr ⟨Inside.step ih ((h.kept b heq hby hb').trans href) ?_,
        outlives_of_shown hk hheld' ha⟩
      rw [(h.same o' hheld').shown]
      exact ha
  apply not_denotes_of_inside (h.target.trans hy)
  rcases hinside x hx with hcycle | ⟨hcycle, -⟩
  · exact hcycle
  · exact hcycle

end Trees

section Transferring

variable {g : JsonGraph δ} {x y : ℕ}

/-- An assignment that leaves the state as it is to the same handle, and else ends in a state as
`Placed` says, exactly where both handles outlive the release. -/
theorem transfers_iff {assign : JsonGraph δ → ℕ → ℕ → Except HandleFault (JsonGraph δ)}
    (hk : g.WellFormed) (hself : x = y → assign g x y = .ok g)
    (hplaced : x ≠ y → g.Outlives x x → g.Outlives x y →
      ∃ g', assign g x y = .ok g' ∧ g.Placed x y g')
    (hout : x ≠ y → ∀ g', assign g x y = .ok g' → g.Outlives x x ∧ g.Outlives x y) :
    Transfers assign g x y ↔ x = y ∨ g.Apart x y := by
  by_cases hne : x = y
  · simp only [hne, true_or, iff_true]
    rw [← hne]
    refine ⟨g, hne ▸ hself hne, fun t ht => hne ▸ ht, fun k hmem o ho => ?_⟩
    by_contra href
    have hpos := refs_pos hmem (Bool.not_eq_false _ ▸ href)
    have := hk.pooled o ho
    omega
  · simp only [hne, false_or]
    constructor
    · rintro ⟨g', hrun, hdenotes, -⟩
      obtain ⟨hox, hoy⟩ := hout hne g' hrun
      refine ⟨hox, hoy, fun o hy ⟨t, ht⟩ hinside => ?_⟩
      obtain ⟨g'', hrun', hplaced⟩ := hplaced hne hox hoy
      rw [hrun] at hrun'
      cases hrun'
      exact hplaced.not_denotes hk hne hoy ht hy hinside (hdenotes t ht)
    · rintro ⟨hox, hoy, hinside⟩
      obtain ⟨g', hrun, hplaced⟩ := hplaced hne hox hoy
      exact ⟨g', hrun, fun t ht => hplaced.denotes hk hne hoy ht
        fun o hy => hinside o hy ⟨t, ht⟩, hplaced.safe⟩

/-- `operator=` of a copy and of a temporary transfer the tree of the source exactly where the
release of the target leaves both handles and the target is not inside the tree. -/
theorem transfers_iff_apart (hk : g.WellFormed) (hx : x ∈ g.handles.map Handle.addr)
    (hy : y ∈ g.handles.map Handle.addr) :
    (Transfers copyAssign g x y ↔ x = y ∨ g.Apart x y) ∧
      (Transfers moveAssign g x y ↔ x = y ∨ g.Apart x y) := by
  constructor
  · apply transfers_iff hk
    · intro heq
      simp only [copyAssign, if_pos heq]
      rfl
    · exact copyAssign_ok hk hx hy
    · exact fun hne g' => outlives_of_copyAssign hk hx hy hne
  · apply transfers_iff hk
    · intro heq
      simp only [moveAssign, if_pos heq]
      rfl
    · exact moveAssign_ok hk hx hy
    · exact fun hne g' => outlives_of_moveAssign hk hx hy hne

end Transferring

section Keeping

variable {g₀ g g' : JsonGraph δ} {a x y o : ℕ} {m m' : MValue δ} {freed : List ℕ}

theorem others_write (h : g.write a m = .ok g') (o : ℕ) : g'.others a o = g.others a o := by
  obtain ⟨m', hm'⟩ := exists_find (mem_addrs_of_write h)
  simp only [write, hm'] at h
  cases h
  rw [others, update, List.countP_map]
  apply List.countP_congr
  intro k _
  by_cases heq : k.addr = a
  · simp [heq]
  · simp [heq]

theorem refs_write (hk : (g.handles.map Handle.addr).Nodup) (hm : g.find a = some m')
    (h : g.write a m = .ok g') (o : ℕ) :
    g'.refs o + pending m' o = g.refs o + pending m o := by
  have hk' := (addrs_of_write h).1 ▸ hk
  have hm' : g'.find a = some m := by rw [find_of_write h, if_pos rfl]
  have hbefore := refs_eq_others hk ((find_eq_some_iff hk).mp hm) o
  have hafter := refs_eq_others hk' ((find_eq_some_iff hk').mp hm') o
  simp only [others_write h] at hafter hbefore
  omega

theorem refs_getCopy (g : JsonGraph δ) (m : MValue δ) (o : ℕ) :
    (g.getCopy m).2.refs o = g.refs o := by
  unfold refs
  rw [handles_getCopy]

theorem others_lt_length (hk : (g.handles.map Handle.addr).Nodup)
    (hx : x ∈ g.handles.map Handle.addr) (o : ℕ) : g.others x o < g.handles.length := by
  obtain ⟨k, hmem, rfl⟩ := List.mem_map.mp hx
  have hlength := (perm_cons_delete hk hmem).length_eq
  have hothers : g.others k.addr o ≤ (delete Handle.addr g.handles k.addr).length := by
    rw [others, delete, ← List.countP_eq_length_filter]
    apply List.countP_mono_left
    intro k' _ hk'
    simp only [Bool.and_eq_true] at hk'
    simpa using hk'.1
  simp only [List.length_cons] at hlength
  omega

/-- A copy counts a handle more. -/
theorem count_getCopy (hroom : (g.objects o).referenceCount.toNat + 1 < 4294967296)
    (m : MValue δ) : ((g.getCopy m).2.objects o).referenceCount.toNat =
      (g.objects o).referenceCount.toNat + pending m o := by
  cases m with
  | null => rfl
  | value v isStringFormat => rfl
  | object o' =>
    by_cases heq : o = o'
    · rw [heq] at hroom ⊢
      have hone : (1 : UInt32).toNat = 1 := rfl
      simp only [getCopy, setObject, Function.update_self, UInt32.toNat_add, pending_self, hone]
      omega
    · simp only [getCopy, setObject, Function.update_of_ne heq, pending_of_ne heq, Nat.add_zero]

/-- The end of a release with other references in the handles: a well-formed state where the
counts are those of the handles. -/
theorem Cascade.wellFormed (h : Cascade g₀ x g [] freed .null) (hk : g₀.WellFormed)
    (haddrs : g'.handles.map Handle.addr = g.handles.map Handle.addr)
    (hsame : ∀ o, (g'.objects o).Same (g.objects o))
    (hcount : ∀ o, (g'.objects o).referenceCount.toNat = g'.refs o)
    (hmore : ∀ o, g.others x o ≤ g'.refs o)
    (hsafe : ∀ k ∈ g'.handles, ∀ o ∈ g'.pool, k.mValue.refersTo o = false) : g'.WellFormed := by
  have hkeys : (g.handles.map Handle.addr).Nodup := hk.keys.sublist (h.sub.map _)
  have hfreed : ∀ o ∈ freed, (g'.objects o).children = [] :=
    fun o ho => (hsame o).children.trans (h.cleared o ho)
  have hleft : ∀ o, o ∉ freed → (g'.objects o).children = (g₀.objects o).children :=
    fun o ho => ((hsame o).trans (h.same o ho)).children
  have hsub : ∀ o, ∀ c ∈ (g'.objects o).children, o ∉ freed ∧ c ∈ (g₀.objects o).children := by
    intro o c hc
    by_cases ho : o ∈ freed
    · rw [hfreed o ho] at hc
      cases hc
    · exact ⟨ho, hleft o ho ▸ hc⟩
  constructor
  · rw [haddrs]
    exact hkeys
  · exact hcount
  · intro o ho
    apply List.countP_eq_zero.mpr
    intro k hmem
    rw [hsafe k hmem o ho]
    simp
  · intro o hnone
    by_cases ho : o ∈ freed
    · exact hfreed o ho
    · rw [hleft o ho]
      apply hk.held
      by_contra hpos
      apply ho
      rw [← h.zero o (Nat.pos_of_ne_zero hpos)]
      have := hmore o
      exact Nat.le_zero.mp (hnone ▸ this)
  · intro o c hc
    obtain ⟨ho, hc⟩ := hsub o c hc
    rw [haddrs]
    by_contra hgone
    obtain ⟨k, hmem, rfl⟩ := List.mem_map.mp (hk.live o c hc)
    obtain ⟨o', ho', hc'⟩ := h.lost k hmem hgone
    exact ho (hk.apart o o' k.addr hc hc' ▸ ho')
  · intro o
    by_cases ho : o ∈ freed
    · rw [hfreed o ho]
      exact List.nodup_nil
    · rw [hleft o ho]
      exact hk.nodup o
  · intro o o' c hc hc'
    exact hk.apart o o' c (hsub o c hc).2 (hsub o' c hc').2

/-- A copy assignment keeps the heap well-formed, while the handles are fewer than a count can
count. -/
theorem WellFormed.copyAssign (hk : g.WellFormed) (hx : x ∈ g.handles.map Handle.addr)
    (hy : y ∈ g.handles.map Handle.addr) (hroom : g.handles.length < 4294967296)
    (h : g.copyAssign x y = .ok g') : g'.WellFormed := by
  by_cases hne : x = y
  · simp only [JsonGraph.copyAssign, if_pos hne] at h
    cases h
    exact hk
  obtain ⟨hox, hoy⟩ := outlives_of_copyAssign hk hx hy hne h
  obtain ⟨g'', hrun, hplaced⟩ := copyAssign_ok hk hx hy hne hox hoy
  rw [h] at hrun
  cases hrun
  obtain ⟨g₁, m, hrelease, hfind, hwrite⟩ := copyAssign_cases hne h
  obtain ⟨haddrs, hobjects, -⟩ := addrs_of_write hwrite
  rw [handles_getCopy] at haddrs
  have hlive : x ∈ g₁.handles.map Handle.addr := by
    have := mem_addrs_of_write hwrite
    rwa [handles_getCopy] at this
  obtain hgone | ⟨freed, hend⟩ := of_releaseAt hk hx hrelease
  · exact absurd hlive hgone
  have hkeys : (g₁.handles.map Handle.addr).Nodup := hk.keys.sublist (hend.sub.map _)
  have hrefs : ∀ o, g'.refs o = g₁.others x o + pending m o := by
    intro o
    obtain ⟨m', hm'⟩ := exists_find hlive
    have hbefore := refs_eq_others hkeys ((find_eq_some_iff hkeys).mp hm') o
    have hafter := refs_write (by rwa [handles_getCopy]) ((find_getCopy ..).trans hm') hwrite o
    rw [refs_getCopy] at hafter
    simp only at hbefore
    omega
  have hless : ∀ o, g₁.others x o + 1 < 4294967296 := by
    intro o
    have := others_lt_length hkeys hlive o
    have := hend.sub.length_le
    omega
  have hcounted : ∀ o, (g₁.objects o).referenceCount.toNat = g₁.others x o := hend.count
  refine hend.wellFormed hk haddrs (fun o => ?_) (fun o => ?_) (fun o => ?_) hplaced.safe
  · rw [hobjects]
    exact objects_getCopy g₁ m o
  · rw [hobjects, count_getCopy (by rw [hcounted]; exact hless o), hcounted, hrefs]
  · rw [hrefs]
    omega

theorem WellFormed.moveAssign (hk : g.WellFormed) (hx : x ∈ g.handles.map Handle.addr)
    (hy : y ∈ g.handles.map Handle.addr) (h : g.moveAssign x y = .ok g') : g'.WellFormed := by
  by_cases hne : x = y
  · simp only [JsonGraph.moveAssign, if_pos hne] at h
    cases h
    exact hk
  obtain ⟨hox, hoy⟩ := outlives_of_moveAssign hk hx hy hne h
  obtain ⟨g'', hrun, hplaced⟩ := moveAssign_ok hk hx hy hne hox hoy
  rw [h] at hrun
  cases hrun
  obtain ⟨g₁, m, g₂, hrelease, hfind, hwrite, hwrite'⟩ := moveAssign_cases hne h
  obtain ⟨haddrs, hobjects, -⟩ := addrs_of_write hwrite
  obtain ⟨haddrs', hobjects', -⟩ := addrs_of_write hwrite'
  have hlive := mem_addrs_of_write hwrite
  obtain hgone | ⟨freed, hend⟩ := of_releaseAt hk hx hrelease
  · exact absurd hlive hgone
  have hkeys : (g₁.handles.map Handle.addr).Nodup := hk.keys.sublist (hend.sub.map _)
  have hrefs : ∀ o, g'.refs o = g₁.others x o := by
    intro o
    obtain ⟨m', hm'⟩ := exists_find hlive
    have hbefore := refs_eq_others hkeys ((find_eq_some_iff hkeys).mp hm') o
    have hafter := refs_write hkeys hm' hwrite o
    have hfind₂ : g₂.find y = some m := by
      rw [find_of_write hwrite, if_neg (Ne.symm hne), hfind]
    have hlast := refs_write (haddrs ▸ hkeys) hfind₂ hwrite' o
    have hnull : pending (.null : MValue δ) o = 0 := rfl
    simp only at hbefore
    omega
  refine hend.wellFormed hk (haddrs'.trans haddrs) (fun o => ?_) (fun o => ?_) (fun o => ?_)
    hplaced.safe
  · rw [hobjects', hobjects]
    exact ⟨rfl, rfl, rfl⟩
  · rw [hobjects', hobjects, hrefs]
    exact hend.count o
  · exact Nat.le_of_eq (hrefs o).symm

end Keeping

section DataInside

/-- `j` is the handle 0, `j["data"]` is the handle 1 and `j["data"][0]` is the handle 2. -/
def dataObjects (count : UInt32) : ℕ → JsonObject
  | 0 => { referenceCount := 1, isArray := false, object := [(['d', 'a', 't', 'a'], 1)],
           array := [] }
  | 1 => { referenceCount := count, isArray := true, object := [], array := [2] }
  | _ => { referenceCount := 0, isArray := false, object := [], array := [] }

def dataGraph : JsonGraph Empty :=
  { handles := [⟨0, .object 0⟩, ⟨1, .object 1⟩, ⟨2, .value (.bool true) true⟩],
    objects := dataObjects 1, pool := [] }

/-- The handle 3 is a copy of `j["data"]`. -/
def keptGraph : JsonGraph Empty :=
  { handles := [⟨0, .object 0⟩, ⟨1, .object 1⟩, ⟨2, .value (.bool true) true⟩, ⟨3, .object 1⟩],
    objects := dataObjects 2, pool := [] }

variable {count : UInt32} {c o o' : ℕ}

theorem mem_children_dataObjects :
    c ∈ (dataObjects count o).children ↔ o = 0 ∧ c = 1 ∨ o = 1 ∧ c = 2 := by
  match o with
  | 0 => simp [dataObjects, JsonObject.children]
  | 1 => simp [dataObjects, JsonObject.children]
  | o + 2 => simp [dataObjects, JsonObject.children]

theorem nodup_children_dataObjects : (dataObjects count o).children.Nodup := by
  match o with
  | 0 => simp [dataObjects, JsonObject.children]
  | 1 => simp [dataObjects, JsonObject.children]
  | o + 2 => simp [dataObjects, JsonObject.children]

theorem apart_dataObjects (hc : c ∈ (dataObjects count o).children)
    (hc' : c ∈ (dataObjects count o').children) : o = o' := by
  rw [mem_children_dataObjects] at hc hc'
  omega

theorem wellFormed_dataGraph : dataGraph.WellFormed := by
  refine ⟨by decide, fun o => ?_, by simp [dataGraph], fun o ho => ?_, fun o c hc => ?_,
    fun o => nodup_children_dataObjects, fun o o' c => apart_dataObjects⟩
  · match o with
    | 0 => rfl
    | 1 => rfl
    | o + 2 => rfl
  · match o with
    | 0 => cases ho
    | 1 => cases ho
    | o + 2 => rfl
  · have := mem_children_dataObjects.mp hc
    simp only [dataGraph, List.map_cons, List.map_nil, List.mem_cons, List.not_mem_nil, or_false]
    omega

theorem wellFormed_keptGraph : keptGraph.WellFormed := by
  refine ⟨by decide, fun o => ?_, by simp [keptGraph], fun o ho => ?_, fun o c hc => ?_,
    fun o => nodup_children_dataObjects, fun o o' c => apart_dataObjects⟩
  · match o with
    | 0 => rfl
    | 1 => rfl
    | o + 2 => rfl
  · match o with
    | 0 => cases ho
    | 1 => cases ho
    | o + 2 => rfl
  · have := mem_children_dataObjects.mp hc
    simp only [keptGraph, List.map_cons, List.map_nil, List.mem_cons, List.not_mem_nil, or_false]
    omega

/-- `Json data = j["data"]; j = data`. -/
theorem transfers_iff_apart_kept :
    Transfers copyAssign keptGraph 0 3 ∧ Transfers moveAssign keptGraph 0 3 := by
  have hapart : keptGraph.Apart 0 3 := by
    refine ⟨fun o _ hc => ?_, fun o _ hc => ?_, fun o hy _ hinside => ?_⟩
    · have := mem_children_dataObjects.mp hc
      omega
    · have := mem_children_dataObjects.mp hc
      omega
    · cases hinside with
      | child hc =>
        have := mem_children_dataObjects.mp (JsonObject.mem_children_of_shown hc)
        omega
      | step _ _ hc =>
        have := mem_children_dataObjects.mp (JsonObject.mem_children_of_shown hc)
        omega
  obtain ⟨hcopy, hmove⟩ := transfers_iff_apart (x := 0) (y := 3) wellFormed_keptGraph
    (by decide) (by decide)
  exact ⟨hcopy.mpr (Or.inr hapart), hmove.mpr (Or.inr hapart)⟩

/-- `j = j["data"]`: the release of `j` destroys the handle that is to be read. -/
theorem not_transfers_dataInside :
    dataGraph.WellFormed ∧ ¬ Transfers copyAssign dataGraph 0 1 ∧
      ¬ Transfers moveAssign dataGraph 0 1 := by
  refine ⟨wellFormed_dataGraph, ?_, ?_⟩
  · rintro ⟨g', hrun, -⟩
    cases hrun
  · rintro ⟨g', hrun, -⟩
    cases hrun

end DataInside

end OrderBookServer.JsonGraph
