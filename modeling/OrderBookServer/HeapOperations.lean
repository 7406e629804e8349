import OrderBookServer.HeapRelease

/-!
What the operations on handles keep. An operation that a program may perform comes to its end in a
sound heap, or it finds the pool empty.
-/
namespace OrderBookServer.JsonGraph

open Relation

variable {δ : Type} {size : ℕ} {g g₁ g₂ g' : JsonGraph δ} {a b c o p q x y : ℕ}
  {m m' : MValue δ} {freed : List ℕ}

/-- The operation ends in a sound heap, or the pool is empty. -/
def Ends (size : ℕ) (result : Except HeapFault (JsonGraph δ)) : Prop :=
  (∃ g', result = .ok g' ∧ Sound size g') ∨ result = .error .exhausted

section Constructing

theorem getCopy_grow (g : JsonGraph δ) (addrs : List ℕ) (m : MValue δ) :
    ((g.grow addrs).getCopy m).2 = (g.getCopy m).2.grow addrs := by
  cases m with
  | null => rfl
  | value v isStringFormat => rfl
  | object o => rfl

theorem find_declare (ha : ¬ g.Live a) (b : ℕ) :
    (g.declare a).find b = if b = a then some .null else g.find b := by
  have hnone : g.find a = none := find_eq_none_iff.mpr ha
  unfold find at hnone ⊢
  unfold declare grow
  rw [List.map_singleton, KeyedList.find_append_singleton]
  by_cases heq : b = a
  · rw [Option.map_eq_none_iff] at hnone
    rw [heq, hnone]
    simp
  · simp [heq, Ne.symm heq]

theorem write_eq (hm : g.find a = some m') (m : MValue δ) : g.write a m = .ok { g with
    handles := KeyedList.update Handle.addr g.handles a fun h => { h with mValue := m } } := by
  simp only [write, hm]
  rfl

/-- A handle that is made with a reference is declared and then written. -/
theorem write_declare (ha : ¬ g.Live a) (m : MValue δ) :
    (g.declare a).write a m = .ok { g with handles := g.handles ++ [⟨a, m⟩] } := by
  have hfind : (g.declare a).find a = some .null := by rw [find_declare ha, if_pos rfl]
  have hold : g.handles.map (fun h => if h.addr = a then { h with mValue := m } else h) =
      g.handles := by
    conv_rhs => rw [← List.map_id g.handles]
    refine List.map_congr_left fun h hh => ?_
    rw [if_neg]
    · rfl
    · rintro rfl
      exact ha (List.mem_map_of_mem hh)
  rw [write_eq hfind, KeyedList.update, declare, grow, List.map_append, hold]
  simp

theorem Sound.declare (h : Sound size g) (ha : ¬ g.Live a) : Sound size (g.declare a) :=
  h.grow (List.nodup_singleton a) fun _ hb => List.mem_singleton.mp hb ▸ ha

theorem live_declare : (g.declare a).Live b ↔ g.Live b ∨ b = a := by
  unfold Live declare
  rw [addrs_grow, List.mem_append, List.mem_singleton]

/-- A new handle lies in no container. -/
theorem Sound.not_child (h : Sound size g) (ha : ¬ g.Live a) (o : ℕ) :
    a ∉ (g.objects o).children := fun hc => ha (h.wellFormed.live_of_child hc)

/-- What a copy construction leaves. -/
structure Copied (g : JsonGraph δ) (a : ℕ) (m : MValue δ) (g' : JsonGraph δ) : Prop where
  find : ∀ b, g'.find b = if b = a then some m else g.find b
  live : ∀ b, g'.Live b ↔ g.Live b ∨ b = a
  same : ∀ o, (g'.objects o).Same (g.objects o)

theorem Sound.copyConstruct (h : Sound size g) (ha : ¬ g.Live a) (hy : g.find y = some m)
    (hroom : g.handles.length + 1 < 4294967296) :
    ∃ g', g.copyConstruct a y = .ok g' ∧ Sound size g' ∧ Copied g a m g' := by
  have hdeclare := h.declare ha
  have hnull : (g.declare a).find a = some .null := by rw [find_declare ha, if_pos rfl]
  have hlive : ¬ (g.getCopy m).2.Live a := by
    unfold Live
    rw [handles_getCopy]
    exact ha
  have hwrite := write_declare hlive m
  have hcopy : ((g.declare a).getCopy m).2.write a m = .ok { (g.getCopy m).2 with
      handles := (g.getCopy m).2.handles ++ [⟨a, m⟩] } := by
    rw [JsonGraph.declare, getCopy_grow]
    exact hwrite
  obtain ⟨haddrs, hobjects, -⟩ := addrs_of_write hwrite
  refine ⟨_, ?_, hdeclare.copyInto hnull isPlain_null (fun o ho => ⟨?_, ?_⟩) ?_ hcopy,
    ⟨fun b => ?_, fun b => ?_, fun o => objects_getCopy g m o⟩⟩
  · simp only [JsonGraph.copyConstruct, handleFault, read_of_find hy]
    change (Except.ok _ : Except HeapFault (JsonGraph δ)) = .ok _
    rw [getCopy_fst]
  · rw [JsonGraph.declare, refs_grow]
    exact refs_pos_of_find h.wellFormed.keys (ho ▸ hy)
  · exact not_within_of_variable (h.not_child ha)
  · rw [JsonGraph.declare, JsonGraph.grow, List.length_append]
    exact hroom
  · rw [find_of_write hwrite]
    split
    · rfl
    · rename_i hne
      rw [find_declare hlive, if_neg hne, find_getCopy]
  · unfold Live
    rw [haddrs]
    have hdeclared := live_declare (g := (g.getCopy m).2) (a := a) (b := b)
    unfold Live at hdeclared
    rw [hdeclared, handles_getCopy]

theorem Sound.moveConstruct (h : Sound size g) (ha : ¬ g.Live a) (hy : g.find y = some m) :
    ∃ g', g.moveConstruct a y = .ok g' ∧ Sound size g' := by
  have hne : a ≠ y := by
    rintro rfl
    exact ha (mem_addrs_of_find hy)
  have hnull : (g.declare a).find a = some .null := by rw [find_declare ha, if_pos rfl]
  have hy' : (g.declare a).find y = some m := by rw [find_declare ha, if_neg (Ne.symm hne), hy]
  have hwrite := write_declare ha m
  obtain ⟨haddrs, -⟩ := addrs_of_write hwrite
  have hlive : y ∈ ({ g with handles := g.handles ++ [⟨a, m⟩] } :
      JsonGraph δ).handles.map Handle.addr := by
    rw [haddrs]
    exact mem_addrs_of_find hy'
  obtain ⟨g', hlast, -⟩ := exists_write hlive .null
  refine ⟨g', ?_, (h.declare ha).moveInto hne hnull isPlain_null hy' (fun o _ => ?_) hwrite hlast⟩
  · simp only [JsonGraph.moveConstruct, handleFault, read_of_find hy]
    change Except.mapError HeapFault.handle
      (({ g with handles := g.handles ++ [⟨a, m⟩] } : JsonGraph δ).write y .null) = .ok g'
    rw [hlast]
    rfl
  · exact not_within_of_variable (h.not_child ha)

end Constructing

section Assigning

theorem find_of_write_self (h : g.write x m = .ok g') : g'.find x = some m := by
  rw [find_of_write h, if_pos rfl]

theorem update_update (l : List (Handle δ)) (x : ℕ) (m m' : MValue δ) :
    KeyedList.update Handle.addr
      (KeyedList.update Handle.addr l x fun h => { h with mValue := m }) x
        (fun h => { h with mValue := m' }) =
      KeyedList.update Handle.addr l x fun h => { h with mValue := m' } := by
  rw [KeyedList.update, KeyedList.update, KeyedList.update, List.map_map]
  refine List.map_congr_left fun h _ => ?_
  by_cases heq : h.addr = x
  · simp [heq]
  · simp [heq]

/-- What was written before does not matter. -/
theorem write_write (hwrite : g₁.write x m = .ok g₂) (m' : MValue δ) :
    g₂.write x m' = g₁.write x m' := by
  obtain ⟨m₁, hm₁⟩ := exists_find (mem_addrs_of_write hwrite)
  have hself := find_of_write_self hwrite
  rw [write_eq hm₁] at hwrite
  obtain rfl := Except.ok.inj hwrite
  rw [write_eq hself, write_eq hm₁]
  simp only [update_update]

theorem write_getCopy_of_write (hwrite : g₁.write x m = .ok g₂) (m' : MValue δ) :
    (g₂.getCopy m').2.write x m' = (g₁.getCopy m').2.write x m' := by
  obtain ⟨m₁, hm₁⟩ := exists_find (mem_addrs_of_write hwrite)
  have hself := find_of_write_self hwrite
  rw [write_eq hm₁] at hwrite
  obtain rfl := Except.ok.inj hwrite
  rw [write_eq ((find_getCopy ..).trans hself), write_eq ((find_getCopy ..).trans hm₁)]
  cases m' with
  | null => simp only [getCopy, update_update]
  | value v isStringFormat => simp only [getCopy, update_update]
  | object o => simp only [getCopy, setObject, update_update]

/-- What a release and the writing of a reference that does not count leave behind it. -/
theorem Sound.released_null (h : Sound size g) (hx : g.Live x) : ∃ g₁ g₂ freed,
    g.releaseAt x = .ok g₁ ∧ Cascade g x g₁ [] freed .null ∧ g₁.write x .null = .ok g₂ ∧
      Sound size g₂ := by
  obtain ⟨g₁, freed, hrun, hend, hpool⟩ := h.releaseAt_ok hx
  obtain ⟨g₂, hwrite, -⟩ := exists_write hend.x_live .null
  exact ⟨g₁, g₂, freed, hrun, hend, hwrite, h.released hend hpool isPlain_null hwrite⟩

/-- In what a release leaves a handle lies where it lay. -/
theorem Cascade.within_of_write (hend : Cascade g x g₁ [] freed .null) (hk : g.WellFormed)
    (hwrite : g₁.write x .null = .ok g₂) (hin : g₂.Within o a) : g.Within o a := by
  obtain ⟨-, hobjects, -⟩ := addrs_of_write hwrite
  obtain ⟨p, hpath, hc⟩ := hin
  rw [hobjects] at hc
  refine hend.within hk ⟨p, ReflTransGen.mono ?_ o p hpath, hc⟩
  rintro q q' ⟨c, hc, href⟩
  rw [hobjects] at hc
  rw [find_of_write hwrite] at href
  split at href
  · cases href
  · exact ⟨c, hc, href⟩

theorem Sound.copyAssign (h : Sound size g) (hx : g.Live x) (hy : g.Live y)
    (hroom : g.handles.length < 4294967296) (happart : x ≠ y → g.Outlives x y ∧
      ∀ o, g.find y = some (.object o) → ¬ g.Within o x) :
    ∃ g', g.copyAssign x y = .ok g' ∧ Sound size g' := by
  by_cases hne : x = y
  · exact ⟨g, by simp only [JsonGraph.copyAssign, if_pos hne]; rfl, h⟩
  obtain ⟨hout, hopen⟩ := happart hne
  obtain ⟨g', hrun, -⟩ := copyAssign_ok h.wellFormed hx hy hne (h.outlives_self x) hout
  obtain ⟨g₀, m, hrelease', hfind, hwrite'⟩ := copyAssign_cases hne hrun
  obtain ⟨g₁, g₂, freed, hrelease, hend, hwrite, hsound⟩ := h.released_null hx
  rw [hrelease] at hrelease'
  obtain rfl := Except.ok.inj hrelease'
  obtain ⟨haddrs, -⟩ := addrs_of_write hwrite
  have hy₂ : g₂.find y = some m := by rw [find_of_write hwrite, if_neg (Ne.symm hne), hfind]
  refine ⟨g', hrun, hsound.copyInto (find_of_write_self hwrite) isPlain_null (fun o ho => ⟨?_, ?_⟩)
    ?_ ((write_getCopy_of_write hwrite m).trans hwrite')⟩
  · exact refs_pos_of_find hsound.wellFormed.keys (ho ▸ hy₂)
  · intro hin
    rw [hend.find_eq h.wellFormed hout, ho] at hfind
    exact hopen o hfind (hend.within_of_write h.wellFormed hwrite hin)
  · have hlength := congrArg List.length haddrs
    rw [List.length_map, List.length_map] at hlength
    have hsub := hend.sub.length_le
    omega

theorem Sound.moveAssign (h : Sound size g) (hx : g.Live x) (hy : g.Live y)
    (happart : x ≠ y → g.Outlives x y ∧ ∀ o, g.find y = some (.object o) → ¬ g.Within o x) :
    ∃ g', g.moveAssign x y = .ok g' ∧ Sound size g' := by
  by_cases hne : x = y
  · exact ⟨g, by simp only [JsonGraph.moveAssign, if_pos hne]; rfl, h⟩
  obtain ⟨hout, hopen⟩ := happart hne
  obtain ⟨g', hrun, -⟩ := moveAssign_ok h.wellFormed hx hy hne (h.outlives_self x) hout
  obtain ⟨g₀, m, g₃, hrelease', hfind, hwrite', hlast⟩ := moveAssign_cases hne hrun
  obtain ⟨g₁, g₂, freed, hrelease, hend, hwrite, hsound⟩ := h.released_null hx
  rw [hrelease] at hrelease'
  obtain rfl := Except.ok.inj hrelease'
  have hy₂ : g₂.find y = some m := by rw [find_of_write hwrite, if_neg (Ne.symm hne), hfind]
  have hagain : g₂.write x m = .ok g₃ := (write_write hwrite m).trans hwrite'
  refine ⟨g', hrun, hsound.moveInto hne (find_of_write_self hwrite) isPlain_null hy₂
    (fun o ho hin => ?_) hagain hlast⟩
  rw [hend.find_eq h.wellFormed hout, ho] at hfind
  exact hopen o hfind (hend.within_of_write h.wellFormed hwrite hin)

theorem handleFault_ok {α : Type} (r : α) :
    handleFault (.ok r : Except HandleFault α) = .ok r := rfl

theorem Sound.assignScalar (h : Sound size g) (hx : g.Live x) (v : JsonValue δ) (left : Bool) :
    ∃ g', g.assignScalar x v left = .ok g' ∧ Sound size g' := by
  obtain ⟨m, hm⟩ := exists_find hx
  cases m with
  | null =>
    obtain ⟨g', hwrite, -⟩ := exists_write hx (.value v left)
    refine ⟨g', ?_, h.writePlain hm isPlain_null (isPlain_value v left) hwrite⟩
    simp only [JsonGraph.assignScalar, read_of_find hm, hwrite]
    rfl
  | value v' isStringFormat =>
    obtain ⟨g', hwrite, -⟩ := exists_write hx (.value v isStringFormat)
    refine ⟨g', ?_, h.writePlain hm (isPlain_value v' _) (isPlain_value v _) hwrite⟩
    simp only [JsonGraph.assignScalar, read_of_find hm, handleFault_ok]
    change handleFault (g.write x (.value v isStringFormat)) = .ok g'
    rw [hwrite, handleFault_ok]
  | object o =>
    obtain ⟨g₁, freed, hrun, hend, hpool⟩ := h.releaseAt_ok hx
    obtain ⟨g', hwrite, -⟩ := exists_write hend.x_live (.value v left)
    refine ⟨g', ?_, h.released hend hpool (isPlain_value v left) hwrite⟩
    simp only [JsonGraph.assignScalar, read_of_find hm, hrun, handleFault_ok]
    change handleFault (g₁.write x (.value v left)) = .ok g'
    rw [hwrite, handleFault_ok]

end Assigning

end OrderBookServer.JsonGraph
