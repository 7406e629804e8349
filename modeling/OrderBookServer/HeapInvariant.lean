import OrderBookServer.HandlePrograms

/-!
The invariant of the heap of handles and objects, and what the steps of the operations keep of it:
new handles, the contents of an object, a handle that is made to refer to something else, and a
handle that goes.
-/
namespace OrderBookServer.JsonGraph

open Relation

variable {δ : Type} {size : ℕ} {g g' : JsonGraph δ} {a b c o p x y : ℕ} {m m' : MValue δ}

/-- Counts are numbers of handles, the pool has each object once that no handle refers to, and no
object can be got at from itself. -/
structure Sound (size : ℕ) (g : JsonGraph δ) : Prop where
  wellFormed : g.WellFormed
  pool_nodup : g.pool.Nodup
  mem_pool : ∀ o, o ∈ g.pool ↔ o < size ∧ g.refs o = 0
  known : ∀ o, 0 < g.refs o → o < size
  keys : ∀ o, ((g.objects o).object.map Prod.fst).Nodup
  acyclic : Acyclic g.Holds

theorem sound_new (size : ℕ) : Sound size (new size : JsonGraph δ) where
  wellFormed := by
    refine ⟨List.nodup_nil, fun o => rfl, fun o _ => rfl, fun o _ => rfl, fun o c hc => ?_,
      fun o => List.nodup_nil, fun o o' c hc => ?_⟩
    · cases hc
    · cases hc
  pool_nodup := List.nodup_range
  mem_pool := fun o => ⟨fun ho => ⟨List.mem_range.mp ho, rfl⟩, fun ho => List.mem_range.mpr ho.1⟩
  known := fun o ho => absurd ho (Nat.lt_irrefl 0)
  keys := fun o => List.nodup_nil
  acyclic := by
    intro o hcycle
    obtain ⟨_, ⟨c, hc, -⟩, -⟩ := TransGen.head'_iff.mp hcycle
    cases hc

section References

/-- A handle in `m_value` that refers to no object. -/
def MValue.IsPlain (m : MValue δ) : Prop := ∀ o, m ≠ .object o

theorem isPlain_null : MValue.IsPlain (.null : MValue δ) := fun _ ho => nomatch ho

theorem isPlain_value (v : JsonValue δ) (isStringFormat : Bool) :
    MValue.IsPlain (.value v isStringFormat) := fun _ ho => nomatch ho

theorem pending_of_isPlain (h : MValue.IsPlain m) (o : ℕ) : pending m o = 0 := by
  unfold pending
  rw [if_neg fun href => h o (refersTo_iff.mp href)]

theorem refs_pos_of_find (hk : (g.handles.map Handle.addr).Nodup)
    (h : g.find a = some (.object o)) : 0 < g.refs o :=
  refs_pos ((find_eq_some_iff hk).mp h) (refersTo_iff.mpr rfl)

theorem exists_of_refs_pos (hk : (g.handles.map Handle.addr).Nodup) (h : 0 < g.refs o) :
    ∃ a, g.find a = some (.object o) := by
  obtain ⟨k, hmem, href⟩ := List.countP_pos_iff.mp h
  refine ⟨k.addr, (find_eq_some_iff hk).mpr ?_⟩
  rw [← refersTo_iff.mp href]
  exact hmem

theorem WellFormed.refs_pos_of_child (h : g.WellFormed) (hc : c ∈ (g.objects o).children) :
    0 < g.refs o := by
  by_contra hnone
  rw [h.held o (by omega)] at hc
  cases hc

theorem WellFormed.live_of_child (h : g.WellFormed) (hc : c ∈ (g.objects o).children) :
    g.Live c := h.live o c hc

theorem refs_drop (hk : (g.handles.map Handle.addr).Nodup) (hx : g.find x = some m) (o : ℕ) :
    g.refs o = (g.drop x).refs o + pending m o :=
  KeyedList.countP_delete hk ((find_eq_some_iff hk).mp hx) fun h => h.mValue.refersTo o

end References

section Growing

variable {addrs : List ℕ}

theorem addrs_grow (g : JsonGraph δ) (addrs : List ℕ) :
    (g.grow addrs).handles.map Handle.addr = g.handles.map Handle.addr ++ addrs := by
  simp [grow, Function.comp_def]

theorem refs_grow (g : JsonGraph δ) (addrs : List ℕ) (o : ℕ) :
    (g.grow addrs).refs o = g.refs o := by
  have hnew : (addrs.map fun a => (⟨a, .null⟩ : Handle δ)).countP
      (fun h => h.mValue.refersTo o) = 0 := by
    rw [List.countP_eq_zero]
    intro h hh
    obtain ⟨a, -, rfl⟩ := List.mem_map.mp hh
    exact Bool.false_ne_true
  rw [refs, grow, List.countP_append, hnew, Nat.add_zero, refs]

theorem find_grow_of_live (h : g.Live a) : (g.grow addrs).find a = g.find a := by
  obtain ⟨m, hm⟩ := exists_find h
  rw [hm]
  unfold find KeyedList.find at hm ⊢
  obtain ⟨k, hk, heq⟩ := Option.map_eq_some_iff.mp hm
  rw [grow, List.find?_append, hk]
  exact congrArg some heq

theorem Sound.nodup_addrs_grow (h : Sound size g) (hnodup : addrs.Nodup)
    (hfresh : ∀ a ∈ addrs, ¬ g.Live a) : ((g.grow addrs).handles.map Handle.addr).Nodup := by
  rw [addrs_grow]
  exact h.wellFormed.keys.append hnodup fun a ha hnew => hfresh a hnew ha

theorem Sound.find_grow_of_new (h : Sound size g) (hnodup : addrs.Nodup)
    (hfresh : ∀ a ∈ addrs, ¬ g.Live a) (ha : a ∈ addrs) : (g.grow addrs).find a = some .null := by
  rw [find_eq_some_iff (h.nodup_addrs_grow hnodup hfresh)]
  exact List.mem_append_right _ (List.mem_map_of_mem ha)

/-- Handles that refer to nothing come to the heap. -/
theorem Sound.grow (h : Sound size g) (hnodup : addrs.Nodup) (hfresh : ∀ a ∈ addrs, ¬ g.Live a) :
    Sound size (g.grow addrs) := by
  have hlive : ∀ {a}, g.Live a → (g.grow addrs).Live a := by
    intro a ha
    unfold Live
    rw [addrs_grow]
    exact List.mem_append_left _ ha
  refine ⟨⟨h.nodup_addrs_grow hnodup hfresh, fun o => ?_, fun o ho => ?_, fun o ho => ?_,
    fun o c hc => hlive (h.wellFormed.live o c hc), h.wellFormed.nodup, h.wellFormed.apart⟩,
    h.pool_nodup, fun o => ?_, fun o ho => ?_, h.keys, h.acyclic.mono ?_⟩
  · rw [refs_grow]
    exact h.wellFormed.count o
  · rw [refs_grow]
    exact h.wellFormed.pooled o ho
  · rw [refs_grow] at ho
    exact h.wellFormed.held o ho
  · rw [refs_grow]
    exact h.mem_pool o
  · rw [refs_grow] at ho
    exact h.known o ho
  · rintro p o ⟨c, hc, href⟩
    rw [find_grow_of_live (h.wellFormed.live_of_child hc)] at href
    exact ⟨c, hc, href⟩

end Growing

section Contents

variable {node : JsonObject}

@[simp] theorem objects_setObject_self (g : JsonGraph δ) (o : ℕ) (node : JsonObject) :
    (g.setObject o node).objects o = node := Function.update_self ..

theorem objects_setObject_of_ne (g : JsonGraph δ) (node : JsonObject) (hne : p ≠ o) :
    (g.setObject o node).objects p = g.objects p := Function.update_of_ne hne ..

theorem children_setObject (g : JsonGraph δ) (o : ℕ) (node : JsonObject) (p : ℕ) :
    ((g.setObject o node).objects p).children =
      if p = o then node.children else (g.objects p).children := by
  by_cases heq : p = o
  · rw [if_pos heq, heq, objects_setObject_self]
  · rw [if_neg heq, objects_setObject_of_ne g node heq]

/-- An object in use gets other contents: handles that it had, and variables from which it cannot
be got at. -/
theorem Sound.setObject (h : Sound size g) (hpos : 0 < g.refs o)
    (hcount : node.referenceCount = (g.objects o).referenceCount)
    (hkeys : (node.object.map Prod.fst).Nodup) (hnodup : node.children.Nodup)
    (hchildren : ∀ c ∈ node.children, c ∈ (g.objects o).children ∨
      g.Variable c ∧ ∀ q, g.find c = some (.object q) → ¬ ReflTransGen g.Holds q o) :
    Sound size (g.setObject o node) := by
  have hcases : ∀ {p c}, c ∈ ((g.setObject o node).objects p).children →
      c ∈ (g.objects p).children ∨ p = o ∧ g.Variable c ∧
        ∀ q, g.find c = some (.object q) → ¬ ReflTransGen g.Holds q o := by
    intro p c hc
    rw [children_setObject] at hc
    by_cases heq : p = o
    · rw [if_pos heq] at hc
      exact (hchildren c hc).imp (fun hold => heq ▸ hold) fun hnew => ⟨heq, hnew⟩
    · rw [if_neg heq] at hc
      exact Or.inl hc
  have hacyclic : Acyclic (g.setObject o node).Holds := by
    refine h.acyclic.add (p := o) (t := fun q => ¬ ReflTransGen g.Holds q o) ?_ fun q hq => hq
    rintro p q ⟨c, hc, href⟩
    rcases hcases hc with hold | ⟨heq, -, hopen⟩
    · exact Or.inl ⟨c, hold, href⟩
    · exact Or.inr ⟨heq, hopen q href⟩
  refine ⟨⟨h.wellFormed.keys, fun p => ?_, h.wellFormed.pooled, fun p hp => ?_, fun p c hc => ?_,
    fun p => ?_, fun p p' c hc hc' => ?_⟩, h.pool_nodup, h.mem_pool, h.known, fun p => ?_,
    hacyclic⟩
  · by_cases heq : p = o
    · rw [heq, objects_setObject_self, hcount]
      exact h.wellFormed.count o
    · rw [objects_setObject_of_ne g node heq]
      exact h.wellFormed.count p
  · have hp' : g.refs p = 0 := hp
    have hne : p ≠ o := by
      rintro rfl
      omega
    rw [children_setObject, if_neg hne]
    exact h.wellFormed.held p hp'
  · rcases hcases hc with hold | ⟨-, hvar, -⟩
    · exact h.wellFormed.live p c hold
    · exact hvar.1
  · rw [children_setObject]
    split
    · exact hnodup
    · exact h.wellFormed.nodup p
  · rcases hcases hc with hold | ⟨heq, hvar, -⟩
    · rcases hcases hc' with hold' | ⟨-, hvar', -⟩
      · exact h.wellFormed.apart p p' c hold hold'
      · exact absurd hold (hvar'.2 p)
    · rcases hcases hc' with hold' | ⟨heq', -, -⟩
      · exact absurd hold' (hvar.2 p')
      · exact heq.trans heq'.symm
  · by_cases heq : p = o
    · rw [heq, objects_setObject_self]
      exact hkeys
    · rw [objects_setObject_of_ne g node heq]
      exact h.keys p

end Contents

section Moving

variable {σ : ℕ → ℕ}

theorem addrs_relocate (g : JsonGraph δ) (σ : ℕ → ℕ) :
    (g.relocate σ).handles.map Handle.addr = (g.handles.map Handle.addr).map σ := by
  simp [relocate, Function.comp_def]

theorem children_relocate (g : JsonGraph δ) (σ : ℕ → ℕ) (o : ℕ) :
    ((g.relocate σ).objects o).children = (g.objects o).children.map σ := by
  simp [relocate, JsonObject.relocate, JsonObject.children, Function.comp_def]

theorem refs_relocate (g : JsonGraph δ) (σ : ℕ → ℕ) (o : ℕ) :
    (g.relocate σ).refs o = g.refs o := by
  rw [refs, relocate, List.countP_map]
  rfl

theorem live_relocate (h : g.Live a) : (g.relocate σ).Live (σ a) := by
  unfold Live
  rw [addrs_relocate]
  exact List.mem_map_of_mem h

theorem nodup_relocate (hk : (g.handles.map Handle.addr).Nodup) (hinj : Set.InjOn σ g.Live) :
    ((g.relocate σ).handles.map Handle.addr).Nodup := by
  rw [addrs_relocate]
  exact List.Nodup.map_on (fun a ha b hb heq => hinj ha hb heq) hk

/-- A handle refers to the same at its new address. -/
theorem find_relocate (hk : (g.handles.map Handle.addr).Nodup) (hinj : Set.InjOn σ g.Live)
    (ha : g.Live a) : (g.relocate σ).find (σ a) = g.find a := by
  obtain ⟨m, hm⟩ := exists_find ha
  rw [hm, find_eq_some_iff (nodup_relocate hk hinj)]
  exact List.mem_map_of_mem ((find_eq_some_iff hk).mp hm)

theorem WellFormed.holds_of_relocate (h : g.WellFormed) (hinj : Set.InjOn σ g.Live)
    (hholds : (g.relocate σ).Holds p o) : g.Holds p o := by
  obtain ⟨c, hc, href⟩ := hholds
  rw [children_relocate] at hc
  obtain ⟨b, hb, rfl⟩ := List.mem_map.mp hc
  rw [find_relocate h.keys hinj (h.live_of_child hb)] at href
  exact ⟨b, hb, href⟩

/-- Handles come to other addresses, no two of them to the same one. -/
theorem Sound.relocate (h : Sound size g) (hinj : Set.InjOn σ g.Live) :
    Sound size (g.relocate σ) := by
  refine ⟨⟨nodup_relocate h.wellFormed.keys hinj, fun o => ?_, fun o ho => ?_, fun o ho => ?_,
    fun o c hc => ?_, fun o => ?_, fun o o' c hc hc' => ?_⟩, h.pool_nodup, fun o => ?_,
    fun o ho => ?_, fun o => ?_, h.acyclic.mono fun p o => h.wellFormed.holds_of_relocate hinj⟩
  · rw [refs_relocate]
    exact h.wellFormed.count o
  · rw [refs_relocate]
    exact h.wellFormed.pooled o ho
  · rw [refs_relocate] at ho
    rw [children_relocate, h.wellFormed.held o ho, List.map_nil]
  · rw [children_relocate] at hc
    obtain ⟨b, hb, rfl⟩ := List.mem_map.mp hc
    exact live_relocate (h.wellFormed.live_of_child hb)
  · rw [children_relocate]
    exact List.Nodup.map_on (fun a ha b hb heq => hinj (h.wellFormed.live_of_child ha)
      (h.wellFormed.live_of_child hb) heq) (h.wellFormed.nodup o)
  · rw [children_relocate] at hc hc'
    obtain ⟨b, hb, rfl⟩ := List.mem_map.mp hc
    obtain ⟨b', hb', heq⟩ := List.mem_map.mp hc'
    obtain rfl := hinj (h.wellFormed.live_of_child hb') (h.wellFormed.live_of_child hb) heq
    exact h.wellFormed.apart o o' b' hb hb'
  · rw [refs_relocate]
    exact h.mem_pool o
  · rw [refs_relocate] at ho
    exact h.known o ho
  · have hkeys : ((g.relocate σ).objects o).object.map Prod.fst =
        (g.objects o).object.map Prod.fst := by
      simp [JsonGraph.relocate, JsonObject.relocate, Function.comp_def]
    rw [hkeys]
    exact h.keys o

/-- Places that differ are no addresses of handles outside the vector. -/
theorem injOn_movedTo {array : List ℕ} {place : ℕ → ℕ}
    (hinj : Set.InjOn place {i | i < array.length})
    (hplace : ∀ i, i < array.length → g.Live (place i) → place i ∈ array) :
    Set.InjOn (movedTo array place) g.Live := by
  intro a ha b hb heq
  unfold movedTo at heq
  by_cases hina : a ∈ array
  · by_cases hinb : b ∈ array
    · rw [if_pos hina, if_pos hinb] at heq
      have hsame := hinj (List.idxOf_lt_length_of_mem hina) (List.idxOf_lt_length_of_mem hinb) heq
      exact (List.idxOf_inj hina).mp hsame
    · rw [if_pos hina, if_neg hinb] at heq
      exact absurd (heq ▸ hplace _ (List.idxOf_lt_length_of_mem hina) (heq ▸ hb)) hinb
  · by_cases hinb : b ∈ array
    · rw [if_neg hina, if_pos hinb] at heq
      exact absurd (heq ▸ hplace _ (List.idxOf_lt_length_of_mem hinb) (heq ▸ ha)) hina
    · rwa [if_neg hina, if_neg hinb] at heq

theorem not_live_moved {array : List ℕ} {place : ℕ → ℕ} {i : ℕ}
    (hinj : Function.Injective place) (hi : array.length ≤ i) (hnew : ¬ g.Live (place i)) :
    ¬ (g.relocate (movedTo array place)).Live (place i) := by
  intro hlive
  unfold Live at hlive
  rw [addrs_relocate] at hlive
  obtain ⟨a, ha, heq⟩ := List.mem_map.mp hlive
  unfold movedTo at heq
  by_cases hin : a ∈ array
  · rw [if_pos hin] at heq
    have hsame := hinj heq
    have := List.idxOf_lt_length_of_mem hin
    omega
  · rw [if_neg hin] at heq
    exact hnew (heq ▸ ha)

end Moving

section Rewiring

/-- A handle that comes to refer to an object in which it does not lie closes no cycle. -/
theorem Sound.acyclic_of_find (h : Sound size g)
    (hchildren : ∀ o, (g'.objects o).children = (g.objects o).children)
    (hfind : ∀ c o, g'.find c = some (.object o) →
      g.find c = some (.object o) ∨ c = x ∧ ¬ g.Within o x) : Acyclic g'.Holds := by
  by_cases hin : ∃ p, x ∈ (g.objects p).children
  · obtain ⟨p, hp⟩ := hin
    refine h.acyclic.add (p := p) (t := fun o => ¬ g.Within o x) ?_
      fun o ho hpath => ho ⟨p, hpath, hp⟩
    rintro q o ⟨c, hc, href⟩
    rw [hchildren] at hc
    rcases hfind c o href with hold | ⟨rfl, hopen⟩
    · exact Or.inl ⟨c, hc, hold⟩
    · exact Or.inr ⟨h.wellFormed.apart q p c hc hp, hopen⟩
  · refine h.acyclic.mono ?_
    rintro q o ⟨c, hc, href⟩
    rw [hchildren] at hc
    rcases hfind c o href with hold | ⟨rfl, -⟩
    · exact ⟨c, hc, hold⟩
    · exact absurd ⟨q, hc⟩ hin

/-- The handles are the same and the objects hold the same, and no object has lost its last
handle. -/
theorem Sound.of_same (h : Sound size g)
    (haddrs : g'.handles.map Handle.addr = g.handles.map Handle.addr)
    (hsame : ∀ o, (g'.objects o).Same (g.objects o))
    (hcount : ∀ o, (g'.objects o).referenceCount.toNat = g'.refs o)
    (hmore : ∀ o, g.refs o ≤ g'.refs o) (hnodup : g'.pool.Nodup)
    (hpool : ∀ o, o ∈ g'.pool ↔ o < size ∧ g'.refs o = 0)
    (hknown : ∀ o, 0 < g'.refs o → o < size) (hacyclic : Acyclic g'.Holds) : Sound size g' := by
  refine ⟨⟨?_, hcount, fun o ho => ((hpool o).mp ho).2, fun o ho => ?_, fun o c hc => ?_,
    fun o => ?_, fun o o' c hc hc' => ?_⟩, hnodup, hpool, hknown, fun o => ?_, hacyclic⟩
  · rw [haddrs]
    exact h.wellFormed.keys
  · have hless := hmore o
    rw [(hsame o).children]
    exact h.wellFormed.held o (by omega)
  · rw [(hsame o).children] at hc
    rw [haddrs]
    exact h.wellFormed.live o c hc
  · rw [(hsame o).children]
    exact h.wellFormed.nodup o
  · rw [(hsame o).children] at hc
    rw [(hsame o').children] at hc'
    exact h.wellFormed.apart o o' c hc hc'
  · rw [(hsame o).2.1]
    exact h.keys o

end Rewiring

section Writing

variable {g₁ g₂ : JsonGraph δ}

theorem not_within_of_children (h : (g.objects o).children = []) : ¬ g.Within o x := by
  rintro ⟨p, hpath, hx⟩
  rcases ReflTransGen.cases_head hpath with rfl | ⟨_, ⟨c, hc, -⟩, -⟩
  · rw [h] at hx
    cases hx
  · rw [h] at hc
    cases hc

theorem not_within_of_variable (h : ∀ o, x ∉ (g.objects o).children) : ¬ g.Within o x :=
  fun ⟨p, _, hx⟩ => h p hx

/-- The references after a handle that refers to no object is written. -/
theorem refs_of_write (h : Sound size g) (hhandles : g₁.handles = g.handles)
    (hx : g.find x = some m) (hplain : MValue.IsPlain m) (hwrite : g₁.write x m' = .ok g')
    (o : ℕ) : g'.refs o = g.refs o + pending m' o := by
  have hx₁ : g₁.find x = some m := by
    unfold find at hx ⊢
    rw [hhandles]
    exact hx
  have hrefs := refs_write (hhandles ▸ h.wellFormed.keys) hx₁ hwrite o
  have hsame : g₁.refs o = g.refs o := by
    unfold refs
    rw [hhandles]
  rw [pending_of_isPlain hplain] at hrefs
  omega

/-- A handle that refers to no object takes a copy of what another one has. -/
theorem Sound.copyInto (h : Sound size g) (hx : g.find x = some m) (hplain : MValue.IsPlain m)
    (hused : ∀ o, m' = .object o → 0 < g.refs o ∧ ¬ g.Within o x)
    (hroom : g.handles.length < 4294967296) (hwrite : (g.getCopy m').2.write x m' = .ok g') :
    Sound size g' := by
  obtain ⟨haddrs, hobjects, hpool⟩ := addrs_of_write hwrite
  rw [handles_getCopy] at haddrs
  rw [pool_getCopy] at hpool
  have hrefs : ∀ o, g'.refs o = g.refs o + pending m' o :=
    refs_of_write h (handles_getCopy g m') hx hplain hwrite
  have hpending : ∀ o, pending m' o = 0 ∨ 0 < g.refs o := by
    intro o
    by_cases href : m'.refersTo o = true
    · exact Or.inr (hused o (refersTo_iff.mp href)).1
    · exact Or.inl (if_neg href)
  have hless : ∀ o, (g.objects o).referenceCount.toNat + 1 < 4294967296 := by
    intro o
    have hothers := refs_eq_others h.wellFormed.keys ((find_eq_some_iff h.wellFormed.keys).mp hx) o
    rw [pending_of_isPlain hplain] at hothers
    have hbound := others_lt_length h.wellFormed.keys (mem_addrs_of_find hx) o
    have hcount := h.wellFormed.count o
    simp only at hothers
    omega
  refine h.of_same haddrs (fun o => ?_) (fun o => ?_) (fun o => ?_) ?_ (fun o => ?_)
    (fun o ho => ?_)
    (h.acyclic_of_find (x := x) (fun o => ?_) fun c o hc => ?_)
  · rw [hobjects]
    exact objects_getCopy g m' o
  · rw [hobjects, count_getCopy (hless o), hrefs, h.wellFormed.count]
  · rw [hrefs]
    omega
  · rw [hpool]
    exact h.pool_nodup
  · rw [hpool, h.mem_pool, hrefs]
    have := hpending o
    omega
  · rw [hrefs] at ho
    have := hpending o
    exact h.known o (by omega)
  · rw [hobjects]
    exact (objects_getCopy g m' o).children
  · rw [find_of_write hwrite, find_getCopy] at hc
    by_cases heq : c = x
    · rw [if_pos heq] at hc
      exact Or.inr ⟨heq, (hused o (Option.some.inj hc)).2⟩
    · rw [if_neg heq] at hc
      exact Or.inl hc

/-- A handle that refers to no object gets a value, or nothing. -/
theorem Sound.writePlain (h : Sound size g) (hx : g.find x = some m) (hplain : MValue.IsPlain m)
    (hplain' : MValue.IsPlain m') (hwrite : g.write x m' = .ok g') : Sound size g' := by
  obtain ⟨haddrs, hobjects, hpool⟩ := addrs_of_write hwrite
  have hrefs : ∀ o, g'.refs o = g.refs o := by
    intro o
    rw [refs_of_write h rfl hx hplain hwrite, pending_of_isPlain hplain', Nat.add_zero]
  refine h.of_same haddrs (fun o => ?_) (fun o => ?_) (fun o => ?_) ?_ (fun o => ?_)
    (fun o ho => ?_)
    (h.acyclic_of_find (x := x) (fun o => by rw [hobjects]) fun c o hc => ?_)
  · rw [hobjects]
    exact ⟨rfl, rfl, rfl⟩
  · rw [hobjects, hrefs]
    exact h.wellFormed.count o
  · rw [hrefs]
  · rw [hpool]
    exact h.pool_nodup
  · rw [hpool, hrefs]
    exact h.mem_pool o
  · rw [hrefs] at ho
    exact h.known o ho
  · rw [find_of_write hwrite] at hc
    by_cases heq : c = x
    · rw [if_pos heq] at hc
      exact absurd (Option.some.inj hc) (hplain' o)
    · rw [if_neg heq] at hc
      exact Or.inl hc

/-- A handle that refers to no object takes over what another one has. -/
theorem Sound.moveInto (h : Sound size g) (hne : x ≠ y) (hx : g.find x = some m)
    (hplain : MValue.IsPlain m) (hy : g.find y = some m')
    (hopen : ∀ o, m' = .object o → ¬ g.Within o x) (hwrite : g.write x m' = .ok g₁)
    (hwrite' : g₁.write y .null = .ok g') : Sound size g' := by
  obtain ⟨haddrs, hobjects, hpool⟩ := addrs_of_write hwrite
  obtain ⟨haddrs', hobjects', hpool'⟩ := addrs_of_write hwrite'
  have hy₁ : g₁.find y = some m' := by rw [find_of_write hwrite, if_neg (Ne.symm hne), hy]
  have hrefs : ∀ o, g'.refs o = g.refs o := by
    intro o
    have hfirst := refs_of_write h rfl hx hplain hwrite o
    have hsecond := refs_write (haddrs ▸ h.wellFormed.keys) hy₁ hwrite' o
    have hnull : pending (.null : MValue δ) o = 0 := rfl
    omega
  refine h.of_same (haddrs'.trans haddrs) (fun o => ?_) (fun o => ?_) (fun o => ?_) ?_ (fun o => ?_)
    (fun o ho => ?_)
    (h.acyclic_of_find (x := x) (fun o => by rw [hobjects', hobjects]) fun c o hc => ?_)
  · rw [hobjects', hobjects]
    exact ⟨rfl, rfl, rfl⟩
  · rw [hobjects', hobjects, hrefs]
    exact h.wellFormed.count o
  · rw [hrefs]
  · rw [hpool', hpool]
    exact h.pool_nodup
  · rw [hpool', hpool, hrefs]
    exact h.mem_pool o
  · rw [hrefs] at ho
    exact h.known o ho
  · rw [find_of_write hwrite', find_of_write hwrite] at hc
    by_cases heqy : c = y
    · rw [if_pos heqy] at hc
      cases hc
    rw [if_neg heqy] at hc
    by_cases heq : c = x
    · rw [if_pos heq] at hc
      exact Or.inr ⟨heq, hopen o (Option.some.inj hc)⟩
    · rw [if_neg heq] at hc
      exact Or.inl hc

theorem acquire_cases (h : g.acquire = .ok (o, g₁)) :
    ∃ pool, g.pool = o :: pool ∧
      g₁ = { g.setObject o { g.objects o with referenceCount := 1 } with pool } := by
  unfold acquire at h
  cases hpool : g.pool with
  | nil =>
    rw [hpool] at h
    cases h
  | cons o' pool =>
    rw [hpool] at h
    cases h
    exact ⟨pool, rfl, rfl⟩

/-- A handle that refers to no object gets an object from the pool. -/
theorem Sound.acquireInto (h : Sound size g) (hx : g.find x = some m) (hplain : MValue.IsPlain m)
    (hacquire : g.acquire = .ok (o, g₁)) (hwrite : g₁.write x (.object o) = .ok g') :
    Sound size g' := by
  obtain ⟨pool, hpool, hg₁⟩ := acquire_cases hacquire
  have hhandles : g₁.handles = g.handles := by rw [hg₁, JsonGraph.setObject]
  obtain ⟨haddrs, hobjects, hpool'⟩ := addrs_of_write hwrite
  rw [hhandles] at haddrs
  have hpool₁ : g'.pool = pool := by rw [hpool', hg₁]
  have hmem : o ∈ g.pool := hpool ▸ List.mem_cons_self ..
  obtain ⟨hlt, hzero⟩ := (h.mem_pool o).mp hmem
  have hrefs : ∀ p, g'.refs p = g.refs p + pending (.object o : MValue δ) p :=
    refs_of_write h hhandles hx hplain hwrite
  have hother : ∀ p, p ≠ o → g'.refs p = g.refs p := by
    intro p hne
    rw [hrefs, pending_of_ne hne, Nat.add_zero]
  have hself : g'.refs o = 1 := by rw [hrefs, pending_self, hzero]
  have hnode : g'.objects o = { g.objects o with referenceCount := 1 } := by
    rw [hobjects, hg₁]
    exact objects_setObject_self g o _
  have hothers : ∀ p, p ≠ o → g'.objects p = g.objects p := by
    intro p hne
    rw [hobjects, hg₁]
    exact objects_setObject_of_ne g _ hne
  have hsame : ∀ p, (g'.objects p).Same (g.objects p) := by
    intro p
    by_cases heq : p = o
    · rw [heq, hnode]
      exact ⟨rfl, rfl, rfl⟩
    · rw [hothers p heq]
      exact ⟨rfl, rfl, rfl⟩
  obtain ⟨hhead, hnodup⟩ := List.nodup_cons.mp (hpool ▸ h.pool_nodup)
  have hclosed : ¬ g.Within o x := not_within_of_children (h.wellFormed.held o hzero)
  refine h.of_same haddrs hsame (fun p => ?_) (fun p => ?_) ?_ (fun p => ?_) (fun p hp => ?_)
    (h.acyclic_of_find (x := x) (fun p => (hsame p).children) fun c p hc => ?_)
  · by_cases heq : p = o
    · rw [heq, hnode, hself]
      rfl
    · rw [hothers p heq, hother p heq]
      exact h.wellFormed.count p
  · rw [hrefs]
    omega
  · rw [hpool₁]
    exact hnodup
  · rw [hpool₁]
    by_cases heq : p = o
    · rw [heq, hself]
      exact iff_of_false hhead fun hp => Nat.one_ne_zero hp.2
    · rw [hother p heq, ← h.mem_pool p, hpool, List.mem_cons]
      exact ⟨Or.inr, fun hp => hp.resolve_left heq⟩
  · by_cases heq : p = o
    · exact heq ▸ hlt
    · exact h.known p (hother p heq ▸ hp)
  · have hfind : g₁.find c = g.find c := by
      unfold find
      rw [hhandles]
    rw [find_of_write hwrite, hfind] at hc
    by_cases heq : c = x
    · rw [if_pos heq] at hc
      cases Option.some.inj hc
      exact Or.inr ⟨heq, hclosed⟩
    · rw [if_neg heq] at hc
      exact Or.inl hc

end Writing

section Dropping

theorem find_drop (g : JsonGraph δ) (x b : ℕ) :
    (g.drop x).find b = if b = x then none else g.find b := by
  unfold find drop
  rw [KeyedList.find_delete]
  split
  · rfl
  · rfl

/-- A variable that refers to no object goes. -/
theorem Sound.drop (h : Sound size g) (hx : g.find x = some m) (hplain : MValue.IsPlain m)
    (hvar : ∀ o, x ∉ (g.objects o).children) : Sound size (g.drop x) := by
  have hrefs : ∀ o, (g.drop x).refs o = g.refs o := by
    intro o
    rw [refs_drop h.wellFormed.keys hx o, pending_of_isPlain hplain, Nat.add_zero]
  refine ⟨⟨KeyedList.keys_delete_nodup h.wellFormed.keys, fun o => ?_, fun o ho => ?_,
    fun o ho => ?_, fun o c hc => ?_, h.wellFormed.nodup, h.wellFormed.apart⟩, h.pool_nodup,
    fun o => ?_, fun o ho => ?_, h.keys, h.acyclic.mono ?_⟩
  · rw [hrefs]
    exact h.wellFormed.count o
  · rw [hrefs]
    exact h.wellFormed.pooled o ho
  · rw [hrefs] at ho
    exact h.wellFormed.held o ho
  · refine mem_addrs_drop.mpr ⟨h.wellFormed.live o c hc, ?_⟩
    rintro rfl
    exact hvar o hc
  · rw [hrefs]
    exact h.mem_pool o
  · rw [hrefs] at ho
    exact h.known o ho
  · rintro p o ⟨c, hc, href⟩
    rw [find_drop] at href
    split at href
    · cases href
    · exact ⟨c, hc, href⟩

end Dropping

end OrderBookServer.JsonGraph
