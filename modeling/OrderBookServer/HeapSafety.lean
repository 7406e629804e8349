import OrderBookServer.HeapContainers

/-!
Runs of programs on handles. A program that keeps to what `Permitted` says never uses a destroyed
handle; every object is in the pool once or can be got at from a variable, and every handle denotes
a document.
-/
namespace OrderBookServer.JsonGraph

open Relation Runs

variable {δ : Type} {size : ℕ} {g g' : JsonGraph δ} {a c o : ℕ}

section Steps

theorem ends_of_handle {result : Except HandleFault (JsonGraph δ)}
    (h : ∃ g', result = .ok g' ∧ Sound size g') : Ends size (handleFault result) := by
  obtain ⟨g', hrun, hsound⟩ := h
  rw [hrun]
  exact Or.inl ⟨g', rfl, hsound⟩

/-- An operation that a program may perform ends in a sound heap, or the pool is empty. -/
theorem Sound.perform (h : Sound size g) (t : Traversal) {operation : Operation δ}
    (hpermitted : g.Permitted operation) : Ends size (perform t g operation) := by
  cases operation with
  | declare a => exact Or.inl ⟨_, rfl, h.declare hpermitted⟩
  | copyConstruct a y =>
    obtain ⟨ha, hy, hroom⟩ := hpermitted
    obtain ⟨m, hm⟩ := exists_find hy
    obtain ⟨g', hrun, hsound, -⟩ := h.copyConstruct ha hm hroom
    exact Or.inl ⟨g', hrun, hsound⟩
  | moveConstruct a y =>
    obtain ⟨ha, hy⟩ := hpermitted
    obtain ⟨m, hm⟩ := exists_find hy
    exact Or.inl (h.moveConstruct ha hm)
  | scalarConstruct a v left =>
    exact Or.inl ((h.declare hpermitted).assignScalar (live_declare.mpr (Or.inr rfl)) v left)
  | copyAssign x y =>
    obtain ⟨hx, hy, hroom, hapart⟩ := hpermitted
    exact ends_of_handle (h.copyAssign hx hy hroom hapart)
  | moveAssign x y =>
    obtain ⟨hx, hy, hapart⟩ := hpermitted
    exact ends_of_handle (h.moveAssign hx hy hapart)
  | assignScalar x v left => exact Or.inl (h.assignScalar hpermitted v left)
  | atKey x key a => exact h.atKey t hpermitted.1 hpermitted.2 key
  | atIndex x i place => exact h.atIndex hpermitted.1 hpermitted.2 i
  | pushBack x y place =>
    obtain ⟨hx, hy, hplace, hroom, hne, hopen⟩ := hpermitted
    obtain ⟨m, hm⟩ := exists_find hy
    exact h.pushBack hx hm hplace hroom hne fun o ho => hopen o (ho ▸ hm)
  | removeField x key => exact Or.inl (h.removeField hpermitted.1 hpermitted.2 key)
  | setSize x n place => exact h.setSize hpermitted.1 hpermitted.2 n
  | setCapacity x place => exact h.setCapacity hpermitted.1 hpermitted.2
  | reverse x => exact h.reverse hpermitted
  | destroy x =>
    obtain ⟨g', hrun, hsound, -⟩ := h.destroy hpermitted
    exact Or.inl ⟨g', hrun, hsound⟩

/-- A run of operations that a program may perform, each in the heap that it finds. -/
theorem Sound.run (h : Sound size g) (t : Traversal) {operations : List (Operation δ)}
    (hpermitted : Along (JsonGraph.perform t) Permitted g operations) :
    Ends size (Runs.run (JsonGraph.perform t) g operations) := by
  induction operations generalizing g with
  | nil => exact Or.inl ⟨g, rfl, h⟩
  | cons operation operations ih =>
    rcases h.perform t hpermitted.1 with ⟨g', hstep, hsound⟩ | hexhausted
    · rw [run_cons_of_ok hstep]
      exact ih hsound (hpermitted.2 g' hstep)
    · right
      simp only [Runs.run, hexhausted]

end Steps

section Documents

/-- The objects to which handles refer. -/
def used (g : JsonGraph δ) : List ℕ :=
  g.handles.filterMap fun h => match h.mValue with
    | .object o => some o
    | _ => none

theorem mem_used (h : g.find a = some (.object o)) (hk : (g.handles.map Handle.addr).Nodup) :
    o ∈ g.used := List.mem_filterMap.mpr ⟨_, (find_eq_some_iff hk).mp h, rfl⟩

theorem exists_mapM {α β : Type} {f : α → Option β} {l : List α}
    (h : ∀ e ∈ l, ∃ v, f e = some v) : ∃ vs, l.mapM f = some vs := by
  induction l with
  | nil => exact ⟨[], rfl⟩
  | cons e l ih =>
    obtain ⟨v, hv⟩ := h e (List.mem_cons_self ..)
    obtain ⟨vs, hvs⟩ := ih fun e' he' => h e' (List.mem_cons_of_mem e he')
    exact ⟨v :: vs, by rw [List.mapM_cons, hv, hvs]; rfl⟩

/-- One number of levels is enough for finitely many handles. -/
theorem exists_depth {cs : List ℕ} (h : ∀ c ∈ cs, ∃ t, g.Denotes c t) :
    ∃ depth, ∀ c ∈ cs, ∃ t, g.tree depth c = some t := by
  induction cs with
  | nil => exact ⟨0, fun c hc => nomatch hc⟩
  | cons c cs ih =>
    obtain ⟨t, depth, ht⟩ := h c (List.mem_cons_self ..)
    obtain ⟨depth', hrest⟩ := ih fun c' hc' => h c' (List.mem_cons_of_mem c hc')
    refine ⟨max depth depth', fun c' hc' => ?_⟩
    rcases List.mem_cons.mp hc' with rfl | hc'
    · exact ⟨t, tree_le ht (Nat.le_max_left ..)⟩
    · obtain ⟨t', ht'⟩ := hrest c' hc'
      exact ⟨t', tree_le ht' (Nat.le_max_right ..)⟩

/-- A handle denotes a document where the handles in what it refers to do. -/
theorem denotes_of_shown (ha : g.find a = some (.object o))
    (h : ∀ c ∈ (g.objects o).shown, ∃ t, g.Denotes c t) : ∃ t, g.Denotes a t := by
  obtain ⟨depth, hdepth⟩ := exists_depth h
  unfold JsonObject.shown at hdepth
  by_cases hkind : (g.objects o).isArray = true
  · rw [if_pos hkind] at hdepth
    obtain ⟨ts, hts⟩ := exists_mapM hdepth
    refine ⟨.array ts, depth + 1, ?_⟩
    simp only [tree, ha, if_pos hkind, hts, Option.map_some]
  · rw [if_neg hkind] at hdepth
    have hmembers : ∀ e ∈ (g.objects o).object,
        ∃ v, ((g.tree depth e.2).map fun t => (e.1, t)) = some v := by
      intro e he
      obtain ⟨t, ht⟩ := hdepth e.2 (List.mem_map_of_mem he)
      exact ⟨(e.1, t), by rw [ht, Option.map_some]⟩
    obtain ⟨ts, hts⟩ := exists_mapM hmembers
    refine ⟨.object ts, depth + 1, ?_⟩
    simp only [tree, ha, if_neg hkind, hts, Option.map_some]

theorem Sound.denotes (h : Sound size g) (ha : g.Live a) : ∃ t, g.Denotes a t := by
  have hall : ∀ o a, g.find a = some (.object o) → ∃ t, g.Denotes a t := by
    refine h.acyclic.induction (l := g.used) (fun p o hpo => ?_) fun o ih a ha => ?_
    · obtain ⟨c, -, hc⟩ := hpo
      exact mem_used hc h.wellFormed.keys
    · refine denotes_of_shown ha fun c hc => ?_
      have hchild := JsonObject.mem_children_of_shown hc
      obtain ⟨m, hm⟩ := exists_find (h.wellFormed.live_of_child hchild)
      cases m with
      | null => exact ⟨.null, 1, by simp only [tree, hm]⟩
      | value v isStringFormat => exact ⟨.value v isStringFormat, 1, by simp only [tree, hm]⟩
      | object o' => exact ih o' ⟨c, hchild, hm⟩ c hm
  obtain ⟨m, hm⟩ := exists_find ha
  cases m with
  | null => exact ⟨.null, 1, by simp only [tree, hm]⟩
  | value v isStringFormat => exact ⟨.value v isStringFormat, 1, by simp only [tree, hm]⟩
  | object o => exact hall o a hm

/-- Nothing leaks: an object in use can be got at from a variable. -/
theorem Sound.reached (h : Sound size g) (hpos : 0 < g.refs o) :
    ∃ x q, g.Variable x ∧ g.find x = some (.object q) ∧ ReflTransGen g.Holds q o := by
  have hall : ∀ o, 0 < g.refs o →
      ∃ x q, g.Variable x ∧ g.find x = some (.object q) ∧ ReflTransGen g.Holds q o := by
    refine h.acyclic.swap.induction (l := List.range size) (fun o p hpo => ?_)
      fun o ih hpos => ?_
    · obtain ⟨c, hc, -⟩ := hpo
      exact List.mem_range.mpr (h.known p (h.wellFormed.refs_pos_of_child hc))
    · obtain ⟨a, ha⟩ := exists_of_refs_pos h.wellFormed.keys hpos
      by_cases hvar : ∀ p, a ∉ (g.objects p).children
      · exact ⟨a, o, ⟨mem_addrs_of_find ha, hvar⟩, ha, ReflTransGen.refl⟩
      · obtain ⟨p, hp⟩ := not_forall_not.mp hvar
        have hholds : g.Holds p o := ⟨a, hp, ha⟩
        obtain ⟨x, q, hx, hq, hpath⟩ := ih p hholds (h.wellFormed.refs_pos_of_child hp)
        exact ⟨x, q, hx, hq, hpath.tail hholds⟩
  exact hall o hpos

end Documents

section Programs

/-- The counts are exact, the pool has each object once that is not in use, every handle denotes a
document, and every object in use can be got at from a variable. -/
structure MemorySafe (size : ℕ) (g : JsonGraph δ) : Prop where
  count : ∀ o, (g.objects o).referenceCount.toNat = g.refs o
  pool_nodup : g.pool.Nodup
  mem_pool : ∀ o, o ∈ g.pool ↔ o < size ∧ g.refs o = 0
  denotes : ∀ a, g.Live a → ∃ t, g.Denotes a t
  reached : ∀ o, 0 < g.refs o →
    ∃ x q, g.Variable x ∧ g.find x = some (.object q) ∧ ReflTransGen g.Holds q o
  returned : (∀ x, ¬ g.Variable x) → g.pool.Perm (List.range size)

theorem Sound.memorySafe (h : Sound size g) : MemorySafe size g where
  count := h.wellFormed.count
  pool_nodup := h.pool_nodup
  mem_pool := h.mem_pool
  denotes := fun _ ha => h.denotes ha
  reached := fun _ ho => h.reached ho
  returned := by
    intro hnone
    refine (List.perm_ext_iff_of_nodup h.pool_nodup List.nodup_range).mpr fun o => ?_
    rw [h.mem_pool, List.mem_range]
    refine ⟨fun ho => ho.1, fun ho => ⟨ho, ?_⟩⟩
    by_contra hpos
    obtain ⟨x, -, hx, -⟩ := h.reached (Nat.pos_of_ne_zero hpos)
    exact hnone x hx

/-- A program that keeps to what is permitted never uses a destroyed handle or a missing node: its
run ends in a heap as `MemorySafe` says, or finds the pool empty. -/
theorem programs_memorySafe (t : Traversal) (operations : List (Operation δ))
    (hpermitted : Along (perform t) Permitted (new size) operations) :
    Runs.run (perform t) (new size) operations = .error .exhausted ∨
      ∃ g, Runs.run (perform t) (new size) operations = .ok g ∧ MemorySafe size g := by
  rcases (sound_new size).run t hpermitted with ⟨g, hrun, hsound⟩ | hexhausted
  · exact Or.inr ⟨g, hrun, hsound.memorySafe⟩
  · exact Or.inl hexhausted

/-- A new member comes first in the traversal. -/
def frontFirst : Traversal where
  emplace := fun members e => e :: members
  perm := fun _ _ => List.Perm.refl _

/-- `Json j, k; j[0]; j.push_back(k); Json copy = j;` where the element moves for the second one. -/
def grownArray : List (Operation Empty) :=
  [.declare 0, .declare 1, .atIndex 0 0 fun i => i + 2, .pushBack 0 1 fun i => i + 10,
    .copyConstruct 3 0]

theorem programs_memorySafe_grownArray :
    ∃ g, Runs.run (perform frontFirst) (new 1) grownArray = .ok g ∧ MemorySafe 1 g := by
  have hpermitted : Along (perform frontFirst) Permitted (new 1) grownArray := by
    refine ⟨List.not_mem_nil, fun g₁ hg₁ => ?_⟩
    cases hg₁
    refine ⟨?_, fun g₂ hg₂ => ?_⟩
    · change 1 ∉ [0]
      decide
    cases hg₂
    refine ⟨⟨List.mem_cons_self .., fun i j h => Nat.add_right_cancel h, fun i hi => ?_⟩,
      fun g₃ hg₃ => ?_⟩
    · change i + 2 ∈ [0, 1] at hi
      simp at hi
    cases hg₃
    refine ⟨⟨List.mem_cons_self .., ?_, ⟨fun i j h => Nat.add_right_cancel h, fun i hi => ?_⟩, ?_,
      Nat.zero_ne_one, fun o ho => nomatch ho⟩, fun g₄ hg₄ => ?_⟩
    · change 1 ∈ [0, 1, 2]
      decide
    · change i + 10 ∈ [0, 1, 2] at hi
      simp at hi
    · change 3 + 1 < 4294967296
      decide
    cases hg₄
    refine ⟨⟨?_, ?_, ?_⟩, fun g₅ _ => trivial⟩
    · change 3 ∉ [0, 1, 10, 11]
      decide
    · exact List.mem_cons_self ..
    · change 4 + 1 < 4294967296
      decide
  exact (programs_memorySafe frontFirst grownArray hpermitted).resolve_left fun h => nomatch h

/-- `j[1] = j[0]` where `j[1]` comes second and moves the element: the reference to it is read. -/
example : Runs.run (perform frontFirst) (new 1) ([.declare 0, .atIndex 0 0 fun i => i + 1,
    .atIndex 0 1 fun i => i + 10, .copyAssign 11 1] : List (Operation Empty)) =
      .error (.handle .destroyed) := rfl

end Programs

end OrderBookServer.JsonGraph
