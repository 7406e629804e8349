import Mathlib.Data.List.GetD
import OrderBookServer.HeapOperations

/-!
What the operations on the containers keep: a handle is made to refer to an object, and the object
gets, permutes or gives up handles.
-/
namespace OrderBookServer.JsonGraph

open Relation

variable {δ : Type} {size : ℕ} {g g₁ g₂ g' : JsonGraph δ} {a b c o p q x y : ℕ}
  {m m' : MValue δ}

section Creating

/-- What `check_create_json_object` leaves: the handle refers to the object `o`. -/
structure Created (g : JsonGraph δ) (x o : ℕ) (g' : JsonGraph δ) : Prop where
  find : ∀ a, g'.find a = if a = x then some (.object o) else g.find a
  addrs : g'.handles.map Handle.addr = g.handles.map Handle.addr
  same : ∀ p, (g'.objects p).Same (g.objects p)
  old : ∀ p, g.find x = some (.object p) → p = o
  new : (∀ p, g.find x ≠ some (.object p)) → g.refs o = 0

theorem Sound.acquire_cases (h : Sound size g) (hx : g.find x = some m)
    (hplain : MValue.IsPlain m) : g.acquire = .error .exhausted ∨
      ∃ o g₁ g', g.acquire = .ok (o, g₁) ∧ g₁.write x (.object o) = .ok g' ∧ Sound size g' ∧
        Created g x o g' := by
  cases hacquire : g.acquire with
  | error fault =>
    unfold acquire at hacquire
    split at hacquire
    · cases hacquire
      exact Or.inl rfl
    · cases hacquire
  | ok result =>
    obtain ⟨o, g₁⟩ := result
    obtain ⟨pool, hpool, hg₁⟩ := JsonGraph.acquire_cases hacquire
    have hhandles : g₁.handles = g.handles := by rw [hg₁, JsonGraph.setObject]
    have hfind₁ : ∀ a, g₁.find a = g.find a := by
      intro a
      unfold find
      rw [hhandles]
    have hlive : x ∈ g₁.handles.map Handle.addr := by
      rw [hhandles]
      exact mem_addrs_of_find hx
    obtain ⟨g', hwrite, hfind, haddrs, hobjects, -⟩ := exists_write hlive (.object o)
    refine Or.inr ⟨o, g₁, g', rfl, hwrite, h.acquireInto hx hplain hacquire hwrite,
      fun a => ?_, ?_, fun p => ?_, fun p hp => ?_, fun _ => ?_⟩
    · rw [hfind, hfind₁]
    · rw [haddrs, hhandles]
    · rw [hobjects, hg₁]
      by_cases heq : p = o
      · rw [heq]
        change ((g.setObject o { g.objects o with referenceCount := 1 }).objects o).Same _
        rw [objects_setObject_self]
        exact ⟨rfl, rfl, rfl⟩
      · change ((g.setObject o { g.objects o with referenceCount := 1 }).objects p).Same _
        rw [objects_setObject_of_ne g _ heq]
        exact ⟨rfl, rfl, rfl⟩
    · rw [hx] at hp
      exact absurd (Option.some.inj hp) (hplain p)
    · exact ((h.mem_pool o).mp (hpool ▸ List.mem_cons_self ..)).2

theorem checkCreateJsonObject_error (hx : g.find x = some m) (hplain : MValue.IsPlain m)
    {fault : HeapFault} (h : g.acquire = .error fault) :
    g.checkCreateJsonObject x = .error fault := by
  cases m with
  | null =>
    simp only [JsonGraph.checkCreateJsonObject, read_of_find hx, handleFault_ok, h]
    rfl
  | value v isStringFormat =>
    simp only [JsonGraph.checkCreateJsonObject, read_of_find hx, handleFault_ok, h]
    rfl
  | object o => exact absurd rfl (hplain o)

theorem checkCreateJsonObject_ok (hx : g.find x = some m) (hplain : MValue.IsPlain m)
    (h : g.acquire = .ok (o, g₁)) (hwrite : g₁.write x (.object o) = .ok g') :
    g.checkCreateJsonObject x = .ok (o, g') := by
  cases m with
  | null =>
    simp only [JsonGraph.checkCreateJsonObject, read_of_find hx, handleFault_ok, h]
    change (handleFault (g₁.write x (.object o)) >>= _) = _
    rw [hwrite]
    rfl
  | value v isStringFormat =>
    simp only [JsonGraph.checkCreateJsonObject, read_of_find hx, handleFault_ok, h]
    change (handleFault (g₁.write x (.object o)) >>= _) = _
    rw [hwrite]
    rfl
  | object o => exact absurd rfl (hplain o)

theorem Sound.checkCreateJsonObject (h : Sound size g) (hx : g.Live x) :
    g.checkCreateJsonObject x = .error .exhausted ∨
      ∃ o g', g.checkCreateJsonObject x = .ok (o, g') ∧ Sound size g' ∧ Created g x o g' := by
  obtain ⟨m, hm⟩ := exists_find hx
  have hplain : MValue.IsPlain m → g.checkCreateJsonObject x = .error .exhausted ∨
      ∃ o g', g.checkCreateJsonObject x = .ok (o, g') ∧ Sound size g' ∧ Created g x o g' := by
    intro hplain
    rcases h.acquire_cases hm hplain with
      hexhausted | ⟨o, g₁, g', hacquire, hwrite, hsound, hcreated⟩
    · exact Or.inl (checkCreateJsonObject_error hm hplain hexhausted)
    · exact Or.inr ⟨o, g', checkCreateJsonObject_ok hm hplain hacquire hwrite, hsound, hcreated⟩
  cases m with
  | null => exact hplain isPlain_null
  | value v isStringFormat => exact hplain (isPlain_value v isStringFormat)
  | object o =>
    refine Or.inr ⟨o, g, ?_, h, fun a => ?_, rfl, fun p => ⟨rfl, rfl, rfl⟩, fun p hp => ?_,
      fun hno => ?_⟩
    · simp only [JsonGraph.checkCreateJsonObject, read_of_find hm, handleFault_ok]
      rfl
    · split
      · rename_i heq
        rw [heq, hm]
      · rfl
    · rw [hm] at hp
      cases hp
      rfl
    · exact absurd hm (hno o)

theorem Created.children (h : Created g x o g') (p : ℕ) :
    (g'.objects p).children = (g.objects p).children := (h.same p).children

theorem Created.live (h : Created g x o g') : g'.Live a ↔ g.Live a := by
  unfold Live
  rw [h.addrs]

theorem Created.refs_pos (h : Created g x o g') (hs : Sound size g') : 0 < g'.refs o :=
  refs_pos_of_find (a := x) hs.wellFormed.keys (by rw [h.find, if_pos rfl])

/-- The object of the handle cannot be got at from where it could not be before. -/
theorem Created.not_reached (h : Created g x o g') (hs : Sound size g) (hpos : 0 < g.refs q)
    (hopen : ¬ g.Within q x) (hapart : ∀ p, g.find x = some (.object p) →
      ¬ ReflTransGen g.Holds q p) : ¬ ReflTransGen g'.Holds q o := by
  intro hpath
  by_cases hold : ∃ p, g.find x = some (.object p)
  · obtain ⟨p, hp⟩ := hold
    obtain rfl := h.old p hp
    refine hapart p hp (ReflTransGen.mono ?_ q p hpath)
    rintro r s ⟨c, hc, href⟩
    rw [h.children] at hc
    rw [h.find] at href
    by_cases heq : c = x
    · rw [if_pos heq] at href
      exact ⟨c, hc, heq ▸ hp.trans href⟩
    · rw [if_neg heq] at href
      exact ⟨c, hc, href⟩
  · have hnone := h.new fun p hp => hold ⟨p, hp⟩
    by_cases hin : ∃ r, x ∈ (g.objects r).children
    · obtain ⟨r, hr⟩ := hin
      have hadd : ∀ s t, g'.Holds s t → g.Holds s t ∨ s = r ∧ t = o := by
        rintro s t ⟨c, hc, href⟩
        rw [h.children] at hc
        rw [h.find] at href
        by_cases heq : c = x
        · rw [if_pos heq] at href
          exact Or.inr ⟨hs.wellFormed.apart s r c hc (heq ▸ hr),
            (MValue.object.inj (Option.some.inj href)).symm⟩
        · rw [if_neg heq] at href
          exact Or.inl ⟨c, hc, href⟩
      rcases Acyclic.reflTransGen_add hadd hpath with hbefore | ⟨hto, -⟩
      · rcases ReflTransGen.cases_tail hbefore with rfl | ⟨s, -, ⟨c, -, href⟩⟩
        · omega
        · have := refs_pos_of_find hs.wellFormed.keys href
          omega
      · exact hopen ⟨r, hto, hr⟩
    · rcases ReflTransGen.cases_tail hpath with rfl | ⟨s, -, ⟨c, hc, href⟩⟩
      · omega
      · rw [h.children] at hc
        rw [h.find] at href
        by_cases heq : c = x
        · exact hin ⟨s, heq ▸ hc⟩
        · rw [if_neg heq] at href
          have := refs_pos_of_find hs.wellFormed.keys href
          omega

end Creating

section Filling

theorem array_setIsArray (g : JsonGraph δ) (o : ℕ) (isArray : Bool) :
    ((g.setIsArray o isArray).objects o).array = (g.objects o).array := by
  rw [setIsArray, objects_setObject_self]

/-- `m_is_array` says which handles belong to the tree, and nothing about who holds them. -/
theorem Sound.setFlag (h : Sound size g) (hpos : 0 < g.refs o) (isArray : Bool) :
    Sound size (g.setIsArray o isArray) :=
  h.setObject hpos rfl (h.keys o) (h.wellFormed.nodup o) fun _ hc => Or.inl hc

theorem children_setIsArray (g : JsonGraph δ) (o : ℕ) (isArray : Bool) (p : ℕ) :
    ((g.setIsArray o isArray).objects p).children = (g.objects p).children := by
  rw [setIsArray, children_setObject]
  split
  · rename_i heq
    rw [heq]
    rfl
  · rfl

/-- The vector of the object has nothing in the places of other elements. -/
theorem Created.vacant (h : Created g x o g') {place : ℕ → ℕ} (hplace : g.Vacant x place) (i : ℕ)
    (hi : g'.Live (place i)) :
    (g'.objects o).array[i]? = some (place i) := by
  have hstays := hplace.2 i (h.live.mp hi)
  rw [(h.same o).2.2]
  unfold elements at hstays
  split at hstays
  · rename_i p hp
    rw [← h.old p hp]
    exact hstays
  · cases hstays

/-- What is cut off the vector is destroyed. -/
theorem Sound.shrink (h : Sound size g) (hpos : 0 < g.refs o) (n : ℕ) :
    ∃ g', JsonGraph.destroyEach ((g.objects o).array.drop n) (g.setObject o { g.objects o with
      array := (g.objects o).array.take n }) = .ok g' ∧ Sound size g' := by
  have hall : ((g.objects o).object.map Prod.snd ++ (g.objects o).array).Nodup :=
    h.wellFormed.nodup o
  have hkept : ((g.objects o).object.map Prod.snd ++ (g.objects o).array.take n).Sublist
      (g.objects o).children := (List.take_sublist n _).append_left _
  have hsound : Sound size (g.setObject o { g.objects o with
      array := (g.objects o).array.take n }) :=
    h.setObject hpos rfl (h.keys o) (hall.sublist hkept) fun c hc => Or.inl (hkept.subset hc)
  refine hsound.destroyEach
    (hall.sublist ((List.drop_sublist n _).trans (List.sublist_append_right ..))) fun c hc => ?_
  have harray : c ∈ (g.objects o).array := List.mem_of_mem_drop hc
  have hchild : c ∈ (g.objects o).children := List.mem_append_right _ harray
  refine ⟨h.wellFormed.live_of_child hchild, fun p hp => ?_⟩
  rw [children_setObject] at hp
  by_cases heq : p = o
  · rw [if_pos heq] at hp
    rcases List.mem_append.mp hp with hmember | htaken
    · exact (List.disjoint_of_nodup_append hall) hmember harray
    · exact List.disjoint_take_drop hall.of_append_right (Nat.le_refl n) htaken hc
  · rw [if_neg heq] at hp
    exact heq (h.wellFormed.apart p o c hp hchild)

/-- The elements of the vector come to their places. -/
theorem injOn_places {place : ℕ → ℕ} (hinj : Function.Injective place)
    (hplace : ∀ i, g.Live (place i) → (g.objects o).array[i]? = some (place i)) :
    Set.InjOn (movedTo (g.objects o).array place) g.Live :=
  injOn_movedTo hinj.injOn fun i _ hi => List.mem_of_getElem? (hplace i hi)

/-- The vector gets elements that refer to nothing, and those that it had move to make room. -/
theorem Sound.enlarge (h : Sound size g) (hpos : 0 < g.refs o) {place : ℕ → ℕ}
    (hinj : Function.Injective place)
    (hplace : ∀ i, g.Live (place i) → (g.objects o).array[i]? = some (place i)) (n : ℕ)
    (hg₁ : g₁ = (g.relocate (movedTo (g.objects o).array place)).grow
      ((List.range' (g.objects o).array.length n).map place)) :
    Sound size (g₁.setObject o { g₁.objects o with array := (g₁.objects o).array ++
      (List.range' (g.objects o).array.length n).map place }) := by
  let new := (List.range' (g.objects o).array.length n).map place
  have hmoved := h.relocate (injOn_places hinj hplace)
  have hnodup : new.Nodup := (List.nodup_range').map hinj
  have hnew : ∀ a ∈ new, ¬ (g.relocate (movedTo (g.objects o).array place)).Live a := by
    intro a ha
    obtain ⟨i, hi, rfl⟩ := List.mem_map.mp ha
    have hlong := (List.mem_range'_1.mp hi).1
    refine not_live_moved hinj hlong fun hlive => ?_
    have := hplace i hlive
    rw [List.getElem?_eq_none hlong] at this
    cases this
  have hsound : Sound size g₁ := hg₁ ▸ hmoved.grow hnodup hnew
  have hlive : ∀ a ∈ new, g₁.Live a := by
    intro a ha
    unfold Live
    rw [hg₁, addrs_grow]
    exact List.mem_append_right _ ha
  have hnot : ∀ a ∈ new, ∀ p, a ∉ (g₁.objects p).children := by
    intro a ha p hp
    rw [hg₁] at hp
    exact hmoved.not_child (hnew a ha) p hp
  have happend : (g₁.objects o).object.map Prod.snd ++ ((g₁.objects o).array ++ new) =
      (g₁.objects o).children ++ new := (List.append_assoc _ _ _).symm
  refine hsound.setObject ?_ rfl (hsound.keys o) ?_ fun c hc => ?_
  · rw [hg₁, refs_grow, refs_relocate]
    exact hpos
  · change ((g₁.objects o).object.map Prod.snd ++ ((g₁.objects o).array ++ new)).Nodup
    rw [happend]
    exact (hsound.wellFormed.nodup o).append hnodup fun c hc hc' => hnot c hc' o hc
  · change c ∈ (g₁.objects o).object.map Prod.snd ++ ((g₁.objects o).array ++ new) at hc
    rw [happend] at hc
    rcases List.mem_append.mp hc with hold | hc
    · exact Or.inl hold
    · refine Or.inr ⟨⟨hlive c hc, hnot c hc⟩, fun q hq => ?_⟩
      rw [hg₁, hmoved.find_grow_of_new hnodup hnew hc] at hq
      cases hq

theorem Sound.resize (h : Sound size g) (hpos : 0 < g.refs o) {place : ℕ → ℕ}
    (hinj : Function.Injective place)
    (hplace : ∀ i, g.Live (place i) → (g.objects o).array[i]? = some (place i)) (n : ℕ) :
    ∃ g', g.resize o n place = .ok g' ∧ Sound size g' := by
  unfold JsonGraph.resize
  by_cases hshort : (g.objects o).array.length < n
  · rw [if_pos hshort]
    exact ⟨_, rfl, h.enlarge hpos hinj hplace _ rfl⟩
  · rw [if_neg hshort]
    exact h.shrink hpos n

theorem Sound.setSize (h : Sound size g) (hx : g.Live x) {place : ℕ → ℕ}
    (hplace : g.Vacant x place) (n : ℕ) : Ends size (g.setSize x n place) := by
  rcases h.checkCreateJsonObject hx with hexhausted | ⟨o, g₁, hrun, hsound, hcreated⟩
  · simp only [JsonGraph.setSize, hexhausted]
    exact Or.inr rfl
  · have hpos := hcreated.refs_pos hsound
    obtain ⟨g', hresize, hsound'⟩ := (hsound.setFlag hpos true).resize hpos hplace.1
      (fun i hi => by
        rw [array_setIsArray]
        exact hcreated.vacant hplace i hi) n
    refine Or.inl ⟨g', ?_, hsound'⟩
    simp only [JsonGraph.setSize, hrun]
    exact hresize

theorem Sound.atIndex (h : Sound size g) (hx : g.Live x) {place : ℕ → ℕ}
    (hplace : g.Vacant x place) (i : ℕ) : Ends size ((g.atIndex x i place).map Prod.snd) := by
  rcases h.checkCreateJsonObject hx with hexhausted | ⟨o, g₁, hrun, hsound, hcreated⟩
  · simp only [JsonGraph.atIndex, hexhausted]
    exact Or.inr rfl
  · have hpos := hcreated.refs_pos hsound
    have hflag := hsound.setFlag hpos true
    by_cases hshort : ((g₁.setIsArray o true).objects o).array.length ≤ i
    · obtain ⟨g', hresize, hsound'⟩ := hflag.resize hpos hplace.1
        (fun i hi => by
          rw [array_setIsArray]
          exact hcreated.vacant hplace i hi) (i + 1)
      refine Or.inl ⟨g', ?_, hsound'⟩
      simp only [JsonGraph.atIndex, hrun]
      change Except.map Prod.snd (if ((g₁.setIsArray o true).objects o).array.length ≤ i
        then _ else _) = _
      rw [if_pos hshort, hresize]
      rfl
    · refine Or.inl ⟨g₁.setIsArray o true, ?_, hflag⟩
      simp only [JsonGraph.atIndex, hrun]
      change Except.map Prod.snd (if ((g₁.setIsArray o true).objects o).array.length ≤ i
        then _ else _) = _
      rw [if_neg hshort]
      rfl

theorem Sound.setCapacity (h : Sound size g) (hx : g.Live x) {place : ℕ → ℕ}
    (hplace : g.Vacant x place) : Ends size (g.setCapacity x place) := by
  rcases h.checkCreateJsonObject hx with hexhausted | ⟨o, g₁, hrun, hsound, hcreated⟩
  · simp only [JsonGraph.setCapacity, hexhausted]
    exact Or.inr rfl
  · have hflag := hsound.setFlag (hcreated.refs_pos hsound) true
    refine Or.inl ⟨_, ?_, hflag.relocate (injOn_places (o := o) hplace.1 fun i hi => ?_)⟩
    · simp only [JsonGraph.setCapacity, hrun]
      rfl
    · rw [array_setIsArray]
      exact hcreated.vacant hplace i hi

/-- The elements of a vector go to each other's places. -/
theorem Sound.injOn_reverse (h : Sound size g) (o : ℕ) :
    Set.InjOn (movedTo (g.objects o).array fun i =>
      (g.objects o).array.getD ((g.objects o).array.length - 1 - i) 0) g.Live := by
  have hnodup : (g.objects o).array.Nodup := (h.wellFormed.nodup o).of_append_right
  have hback : ∀ {i}, i < (g.objects o).array.length →
      (g.objects o).array.length - 1 - i < (g.objects o).array.length := by omega
  refine injOn_movedTo (fun i hi j hj heq => ?_) fun i hi _ => ?_
  · have hi' : i < (g.objects o).array.length := hi
    have hj' : j < (g.objects o).array.length := hj
    simp only [List.getD_eq_getElem _ _ (hback hi'), List.getD_eq_getElem _ _ (hback hj')] at heq
    have hsame := (hnodup.getElem_inj_iff).mp heq
    omega
  · rw [List.getD_eq_getElem _ _ (hback hi)]
    exact List.getElem_mem _

theorem Sound.reverse (h : Sound size g) (hx : g.Live x) : Ends size (g.reverse x) := by
  rcases h.checkCreateJsonObject hx with hexhausted | ⟨o, g₁, hrun, hsound, hcreated⟩
  · simp only [JsonGraph.reverse, hexhausted]
    exact Or.inr rfl
  · have hpos := hcreated.refs_pos hsound
    have hflag := hsound.setFlag hpos true
    have hmoved := hflag.relocate (hflag.injOn_reverse o)
    let g₂ := (g₁.setIsArray o true).relocate
      (movedTo ((g₁.setIsArray o true).objects o).array fun i =>
        ((g₁.setIsArray o true).objects o).array.getD
          (((g₁.setIsArray o true).objects o).array.length - 1 - i) 0)
    refine Or.inl ⟨g₂.setObject o { g₂.objects o with array := (g₂.objects o).array.reverse }, ?_,
      hmoved.setObject ?_ rfl (hmoved.keys o) ?_ fun c hc => Or.inl ?_⟩
    · simp only [JsonGraph.reverse, hrun]
      rfl
    · rw [refs_relocate]
      exact hpos
    · exact ((List.reverse_perm _).append_left _).nodup_iff.mpr (hmoved.wellFormed.nodup o)
    · exact ((List.reverse_perm _).append_left _).mem_iff.mp hc

theorem Sound.atKey (h : Sound size g) (t : Traversal) (hx : g.Live x) (ha : ¬ g.Live a)
    (key : Text) : Ends size ((g.atKey t x key a).map Prod.snd) := by
  rcases h.checkCreateJsonObject hx with hexhausted | ⟨o, g₁, hrun, hsound, hcreated⟩
  · simp only [JsonGraph.atKey, hexhausted]
    exact Or.inr rfl
  let g₂ := g₁.setIsArray o false
  have hpos := hcreated.refs_pos hsound
  have hflag : Sound size g₂ := hsound.setFlag hpos false
  cases hlookup : ((g₁.setIsArray o false).objects o).object.lookup
      (key.takeWhile fun c => c ≠ '\x00') with
  | some c =>
    refine Or.inl ⟨g₂, ?_, hflag⟩
    simp only [JsonGraph.atKey, hrun, bind, Except.bind, hlookup]
    rfl
  | none =>
    have ha₂ : ¬ g₂.Live a := fun hlive => ha (hcreated.live.mp hlive)
    have hperm := t.perm (g₂.objects o).object (key.takeWhile fun c => c ≠ '\x00', a)
    have hchildren := ((hperm.map Prod.snd).append_right (g₂.objects o).array)
    refine Or.inl ⟨(g₂.declare a).setObject o { g₂.objects o with
      object := t.emplace (g₂.objects o).object (key.takeWhile fun c => c ≠ '\x00', a) }, ?_, ?_⟩
    · simp only [JsonGraph.atKey, hrun, bind, Except.bind, hlookup]
      rfl
    · refine (hflag.declare ha₂).setObject ?_ rfl ?_ ?_ fun c hc => ?_
      · rw [JsonGraph.declare, refs_grow]
        exact hpos
      · refine ((hperm.map Prod.fst).nodup_iff).mpr (List.nodup_cons.mpr ⟨fun hmem => ?_,
          hflag.keys o⟩)
        obtain ⟨e, he, heq⟩ := List.mem_map.mp hmem
        have hne := List.lookup_eq_none_iff.mp hlookup e he
        rw [heq] at hne
        simp at hne
      · refine hchildren.nodup_iff.mpr (List.nodup_cons.mpr ⟨?_, hflag.wellFormed.nodup o⟩)
        exact hflag.not_child ha₂ o
      · rcases List.mem_cons.mp (hchildren.mem_iff.mp hc) with rfl | hold
        · refine Or.inr ⟨⟨live_declare.mpr (Or.inr rfl), hflag.not_child ha₂⟩, fun q hq => ?_⟩
          rw [find_declare ha₂, if_pos rfl] at hq
          cases hq
        · exact Or.inl hold

/-- The vector gets a variable as its last element, and those that it had move to make room. -/
theorem Sound.append (h : Sound size g) (hpos : 0 < g.refs o) {place : ℕ → ℕ}
    (hinj : Function.Injective place) (hlast : g.find (place (g.objects o).array.length) = some m)
    (hvar : ∀ p, place (g.objects o).array.length ∉ (g.objects p).children)
    (hplace : ∀ i, i < (g.objects o).array.length → g.Live (place i) →
      place i ∈ (g.objects o).array)
    (hopen : ∀ q, m = .object q → ¬ ReflTransGen g.Holds q o)
    (hg₁ : g₁ = g.relocate (movedTo (g.objects o).array place)) :
    Sound size (g₁.setObject o { g₁.objects o with
      array := (g₁.objects o).array ++ [place (g.objects o).array.length] }) := by
  let a := place (g.objects o).array.length
  have hmovedInj := injOn_movedTo hinj.injOn hplace
  have hlive : g.Live a := mem_addrs_of_find hlast
  have hstays : movedTo (g.objects o).array place a = a :=
    if_neg fun hin => hvar o (List.mem_append_right _ hin)
  have hsound : Sound size g₁ := hg₁ ▸ h.relocate hmovedInj
  have hnot : ∀ p, a ∉ (g₁.objects p).children := by
    intro p hc
    rw [hg₁, children_relocate] at hc
    obtain ⟨b, hb, heq⟩ := List.mem_map.mp hc
    have hsame := hmovedInj (h.wellFormed.live_of_child hb) hlive (heq.trans hstays.symm)
    have hchild : a ∈ (g.objects p).children := hsame ▸ hb
    exact hvar p hchild
  have happend : (g₁.objects o).object.map Prod.snd ++ ((g₁.objects o).array ++ [a]) =
      (g₁.objects o).children ++ [a] := (List.append_assoc _ _ _).symm
  refine hsound.setObject ?_ rfl (hsound.keys o) ?_ fun c hc => ?_
  · rw [hg₁, refs_relocate]
    exact hpos
  · change ((g₁.objects o).object.map Prod.snd ++ ((g₁.objects o).array ++ [a])).Nodup
    rw [happend]
    refine (hsound.wellFormed.nodup o).append (List.nodup_singleton a) fun c hc hc' => ?_
    exact hnot o (List.mem_singleton.mp hc' ▸ hc)
  · change c ∈ (g₁.objects o).object.map Prod.snd ++ ((g₁.objects o).array ++ [a]) at hc
    rw [happend] at hc
    rcases List.mem_append.mp hc with hold | hc
    · exact Or.inl hold
    obtain rfl := List.mem_singleton.mp hc
    refine Or.inr ⟨⟨?_, hnot⟩, fun q hq hpath => ?_⟩
    · rw [hg₁]
      exact hstays ▸ live_relocate hlive
    · rw [hg₁, ← hstays, find_relocate h.wellFormed.keys hmovedInj hlive, hlast] at hq
      rw [hg₁] at hpath
      exact hopen q (Option.some.inj hq) (ReflTransGen.mono
        (fun r s => h.wellFormed.holds_of_relocate hmovedInj) q o hpath)

theorem Sound.pushBack (h : Sound size g) (hx : g.Live x) (hy : g.find y = some m)
    {place : ℕ → ℕ} (hplace : g.Vacant x place) (hroom : g.handles.length + 1 < 4294967296)
    (hne : x ≠ y) (hopen : ∀ o, m = .object o → ¬ g.Within o x ∧
      ∀ p, g.find x = some (.object p) → ¬ ReflTransGen g.Holds o p) :
    Ends size (g.pushBack x y place) := by
  rcases h.checkCreateJsonObject hx with hexhausted | ⟨o, g₁, hrun, hsound, hcreated⟩
  · simp only [JsonGraph.pushBack, hexhausted]
    exact Or.inr rfl
  let g₂ := g₁.setIsArray o true
  let a := place (g₂.objects o).array.length
  have hflag : Sound size g₂ := hsound.setFlag (hcreated.refs_pos hsound) true
  have hvacant : ∀ i, g₂.Live (place i) → (g₂.objects o).array[i]? = some (place i) := by
    intro i hi
    rw [array_setIsArray]
    exact hcreated.vacant hplace i hi
  have ha₂ : ¬ g₂.Live a := by
    intro hlive
    have hstays := hvacant _ hlive
    rw [List.getElem?_eq_none (Nat.le_refl _)] at hstays
    cases hstays
  have hy₂ : g₂.find y = some m := by
    change g₁.find y = some m
    rw [hcreated.find, if_neg (Ne.symm hne), hy]
  have hlength : g₂.handles.length = g.handles.length := by
    have haddrs := congrArg List.length hcreated.addrs
    rw [List.length_map, List.length_map] at haddrs
    exact haddrs
  obtain ⟨g₃, hcopy, hsound₃, hcopied⟩ := hflag.copyConstruct ha₂ hy₂ (by rw [hlength]; exact hroom)
  have harray : (g₃.objects o).array = (g₂.objects o).array := (hcopied.same o).2.2
  have hlast : place (g₃.objects o).array.length = a := by rw [harray]
  have hnot : ∀ p, a ∉ (g₃.objects p).children := by
    intro p hc
    rw [(hcopied.same p).children] at hc
    exact hflag.not_child ha₂ p hc
  have hxa : x ≠ a := by
    rintro rfl
    exact ha₂ (hcreated.live.mpr hx)
  have hx₃ : g₃.find x = some (.object o) := by
    rw [hcopied.find, if_neg hxa]
    change g₁.find x = _
    rw [hcreated.find, if_pos rfl]
  refine Or.inl ⟨_, ?_, hsound₃.append (refs_pos_of_find hsound₃.wellFormed.keys hx₃) hplace.1
    (m := m) ?_ ?_ (fun i hi hlive => ?_) (fun q hq hpath => ?_) rfl⟩
  · simp only [JsonGraph.pushBack, hrun]
    change ((g₂.copyConstruct a y) >>= fun g => _) = _
    rw [hcopy, harray]
    rfl
  · rw [hlast, hcopied.find, if_pos rfl]
  · rw [hlast]
    exact hnot
  · rw [harray] at hi ⊢
    rcases (hcopied.live _).mp hlive with hold | hnew
    · exact List.mem_of_getElem? (hvacant i hold)
    · have hsame := hplace.1 hnew
      omega
  · obtain ⟨hwithin, hapart⟩ := hopen q hq
    have hused : 0 < g.refs q := refs_pos_of_find h.wellFormed.keys (hq ▸ hy)
    refine hcreated.not_reached h hused hwithin hapart (ReflTransGen.mono ?_ q o hpath)
    rintro r s ⟨b, hb, href⟩
    have hba : b ≠ a := by
      rintro rfl
      exact hnot r hb
    rw [hcopied.find, if_neg hba] at href
    rw [(hcopied.same r).children, children_setIsArray] at hb
    exact ⟨b, hb, href⟩

end Filling

section Removing

theorem Sound.removeField (h : Sound size g) (hx : g.Live x) (hnode : g.find x ≠ some .null)
    (key : Text) : ∃ g', g.removeField x key = .ok g' ∧ Sound size g' := by
  obtain ⟨m, hm⟩ := exists_find hx
  cases m with
  | null => exact absurd hm hnode
  | value v isStringFormat =>
    refine ⟨g, ?_, h⟩
    simp only [JsonGraph.removeField, read_of_find hm, handleFault_ok]
    rfl
  | object o =>
    let node : JsonObject := { g.objects o with
      isArray := false, object := (g.objects o).object.filter fun e => e.1 ≠ key }
    have hall : ((g.objects o).object.map Prod.snd ++ (g.objects o).array).Nodup :=
      h.wellFormed.nodup o
    have hkept : node.children.Sublist (g.objects o).children :=
      (List.filter_sublist.map Prod.snd).append_right _
    have hsound : Sound size (g.setObject o node) := by
      refine h.setObject (refs_pos_of_find h.wellFormed.keys hm) rfl ?_ (hall.sublist hkept)
        fun c hc => Or.inl (hkept.subset hc)
      exact (h.keys o).sublist (List.filter_sublist.map _)
    have hvariable : ∀ c ∈ ((g.objects o).object.lookup key).toList,
        (g.setObject o node).Variable c := by
      intro c hc
      have hlookup : (g.objects o).object.lookup key = some c := by simpa using hc
      obtain ⟨front, back, hsplit, -⟩ := List.lookup_eq_some_iff.mp hlookup
      have hmem : (key, c) ∈ (g.objects o).object := by
        rw [hsplit]
        exact List.mem_append_right _ (List.mem_cons_self ..)
      have hmember : c ∈ (g.objects o).object.map Prod.snd := List.mem_map_of_mem hmem
      have hchild : c ∈ (g.objects o).children := List.mem_append_left _ hmember
      refine ⟨h.wellFormed.live_of_child hchild, fun p hp => ?_⟩
      rw [children_setObject] at hp
      by_cases heq : p = o
      · rw [if_pos heq] at hp
        rcases List.mem_append.mp hp with hfiltered | harray
        · obtain ⟨e, he, hec⟩ := List.mem_map.mp hfiltered
          obtain ⟨hold, hne⟩ := List.mem_filter.mp he
          have hsame := List.inj_on_of_nodup_map hall.of_append_left hold hmem hec
          simp [hsame] at hne
        · exact List.disjoint_of_nodup_append hall hmember harray
      · rw [if_neg heq] at hp
        exact heq (h.wellFormed.apart p o c hp hchild)
    have hnodup : ((g.objects o).object.lookup key).toList.Nodup := by
      cases (g.objects o).object.lookup key with
      | none => exact List.nodup_nil
      | some c => exact List.nodup_singleton c
    obtain ⟨g', hrun, hsound'⟩ := hsound.destroyEach hnodup hvariable
    refine ⟨g', ?_, hsound'⟩
    simp only [JsonGraph.removeField, read_of_find hm, handleFault_ok]
    exact hrun

end Removing

end OrderBookServer.JsonGraph
