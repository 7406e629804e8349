import Mathlib.Data.List.Nodup
import OrderBookServer.Runs
import OrderBookServer.ShareString

/-!
The counts of shared strings. Every operation keeps each count equal to the number of objects that
refer to the text, and what nothing refers to in the pool, unless an object is assigned to itself or
a count has no room for one more.
-/
namespace OrderBookServer.StringHeap

open StdString Runs

/-- The object refers to the reference `r`. -/
def names (r : ℕ) (o : Option ShareString) : Bool := o.bind ShareString.stringReference = some r

/-- How many living objects refer to `r`. -/
def handles (h : StringHeap) (r : ℕ) : ℕ := h.objects.countP (names r)

/-- The references in the pool. -/
def free (n : ℕ) (h : StringHeap) : List ℕ :=
  Ring.window n h.pool.availableItems h.pool.head h.pool.size

/-- The counts are exact and the pool has the references that nothing refers to. -/
structure Exact (n : ℕ) (h : StringHeap) : Prop where
  counted : ∀ r, 0 < h.handles r → (h.pool.data r).count.toNat = h.handles r ∧ r ∉ h.free n
  pooled : ∀ r < n, h.handles r = 0 → (h.free n).count r = 1
  named : ∀ x s, h.object x = some s → s.stringReference ≠ none

namespace Op

/-- The objects that an operation is about. -/
def operands : Op → List ℕ
  | .construct _ => []
  | .copyConstruct source => [source]
  | .moveConstruct source => [source]
  | .copyAssign target source => [target, source]
  | .moveAssign target source => [target, source]
  | .fromSubstr source _ _ => [source]
  | .fromSubstrWithEnd source _ _ => [source]
  | .destroy x => [x]

def assigned : Op → Option ℕ
  | .copyAssign target _ => some target
  | .moveAssign target _ => some target
  | _ => none

/-- The reference that one more object refers to after the operation. -/
def gains (h : StringHeap) : Op → Option ℕ
  | .copyConstruct source => (h.object source).bind ShareString.stringReference
  | .moveConstruct source => (h.object source).bind ShareString.stringReference
  | .copyAssign target source => gainsAssigned target source
  | .moveAssign target source => gainsAssigned target source
  | .fromSubstr source startIndex length =>
    gainsWindow source fun s => s.fromSubstr startIndex length
  | .fromSubstrWithEnd source startIndex endIndex =>
    gainsWindow source fun s => s.fromSubstrWithEnd startIndex endIndex
  | _ => none
where
  gainsAssigned (target source : ℕ) : Option ℕ :=
    let old := (h.object target).bind ShareString.stringReference
    let new := (h.object source).bind ShareString.stringReference
    if new = old then none else new
  gainsWindow (source : ℕ) (window : ShareString → Except Failure ShareString) : Option ℕ :=
    (h.object source).bind fun s =>
      match window s with
      | .ok _ => s.stringReference
      | .error _ => none

end Op

/-- The objects that an operation is about live. -/
def Live (h : StringHeap) (op : Op) : Prop := ∀ x ∈ op.operands, h.object x ≠ none

/-- No object is assigned to itself, and the count has room for one more reference. -/
structure Sound (h : StringHeap) (op : Op) : Prop where
  apart : ∀ x, op ≠ .copyAssign x x ∧ op ≠ .moveAssign x x
  room : ∀ r, op.gains h = some r → h.handles r + 1 < 4294967296

/-- An object that lives before and after the operation and is not assigned has the same text. -/
def Keeps (h : StringHeap) (op : Op) (h' : StringHeap) : Prop :=
  ∀ x s s', h.object x = some s → h'.object x = some s' → op.assigned ≠ some x →
    h'.data s' = h.data s

/-- The operation ends and leaves exact counts and the texts of the other objects. -/
def Right (n : ℕ) (h : StringHeap) (op : Op) : Prop :=
  ∃ h', step n h op = .ok h' ∧ Exact n h' ∧ Keeps h op h'

section Objects

variable {h : StringHeap} {s t : ShareString} {o : Option ShareString} {x y r : ℕ}

theorem object_eq_some_iff : h.object x = some s ↔ h.objects[x]? = some (some s) := by
  unfold object
  rw [List.getD_eq_getElem?_getD]
  cases h.objects[x]? with
  | none => simp
  | some o => simp

theorem handles_add : (h.add s).handles r =
    h.handles r + if s.stringReference = some r then 1 else 0 := by
  unfold handles add
  rw [List.countP_append, List.countP_singleton]
  simp [names]

theorem handles_set (hx : h.object x = some s) :
    (h.set x o).handles r + (if s.stringReference = some r then 1 else 0) =
      h.handles r + if names r o then 1 else 0 := by
  rw [object_eq_some_iff] at hx
  obtain ⟨hlt, hat⟩ := List.getElem?_eq_some_iff.mp hx
  have hnames : names r h.objects[x] = decide (s.stringReference = some r) := by
    rw [hat]
    simp [names]
  unfold handles set
  rw [List.countP_set hlt, hnames]
  by_cases heq : s.stringReference = some r
  · have hpos : 0 < h.objects.countP (names r) := by
      apply List.countP_pos_iff.mpr
      refine ⟨h.objects[x], List.getElem_mem hlt, ?_⟩
      rw [hnames]
      exact decide_eq_true heq
    simp only [heq, decide_true, if_true]
    omega
  · simp [heq]

theorem handles_pos (hx : h.object x = some s) (hr : s.stringReference = some r) :
    0 < h.handles r := by
  rw [object_eq_some_iff] at hx
  apply List.countP_pos_iff.mpr
  refine ⟨some s, List.mem_of_getElem? hx, ?_⟩
  simp [names, hr]

theorem object_add_of_some (hx : h.object x = some t) : (h.add s).object x = some t := by
  rw [object_eq_some_iff] at hx ⊢
  exact List.getElem?_append_left (List.getElem?_eq_some_iff.mp hx).1 ▸ hx

theorem object_set_of_ne (hne : y ≠ x) : (h.set x o).object y = h.object y := by
  unfold object set
  rw [List.getD_eq_getElem?_getD, List.getD_eq_getElem?_getD, List.getElem?_set_ne hne.symm]

theorem object_set_self (hx : h.object x = some s) : (h.set x o).object x = o := by
  rw [object_eq_some_iff] at hx
  obtain ⟨hlt, _⟩ := List.getElem?_eq_some_iff.mp hx
  unfold object set
  rw [List.getD_eq_getElem?_getD, List.getElem?_set_self hlt, Option.getD_some]

/-- A new object is the one that was added. -/
theorem eq_of_object_add (hx : (h.add s).object x = some t) : h.object x = some t ∨ t = s := by
  rw [object_eq_some_iff] at hx
  unfold add at hx
  rw [List.getElem?_append] at hx
  split at hx
  · exact Or.inl (object_eq_some_iff.mpr hx)
  · have hmem := List.mem_singleton.mp (List.mem_of_getElem? hx)
    exact Or.inr (Option.some.inj hmem)

end Objects

section Invariant

/-- The references in `avail` are those that nothing refers to, and the counts of the others are
exact. -/
structure Counted (n : ℕ) (h : StringHeap) (avail : List ℕ) : Prop where
  serves : h.pool.Serves n avail
  nodup : avail.Nodup
  free_iff : ∀ r, r ∈ avail ↔ r < n ∧ h.handles r = 0
  count : ∀ r, 0 < h.handles r → r < n ∧ (h.pool.data r).count.toNat = h.handles r

def Named (h : StringHeap) : Prop := ∀ x s, h.object x = some s → s.stringReference ≠ none

def Inv (n : ℕ) (h : StringHeap) : Prop := (∃ avail, Counted n h avail) ∧ h.Named

/-- No text differs. -/
def SameTexts (h h' : StringHeap) : Prop := ∀ r, (h'.pool.data r).data = (h.pool.data r).data

variable {n r x : ℕ} {h h' : StringHeap} {s w : ShareString} {avail : List ℕ}

theorem inv_new (n : ℕ) : Inv n (new n) := by
  refine ⟨⟨List.range n, PoolBuffer.serves_new n _, List.nodup_range, fun r => ?_, fun r hr => ?_⟩,
    fun x s hx => ?_⟩
  · rw [List.mem_range]
    exact ⟨fun hlt => ⟨hlt, rfl⟩, And.left⟩
  · exact absurd hr (Nat.lt_irrefl 0)
  · cases hx

theorem Inv.exact (hinv : Inv n h) : Exact n h := by
  obtain ⟨⟨avail, hc⟩, hnamed⟩ := hinv
  have hfree : h.free n = avail := hc.serves.holds.eq_window.symm
  refine ⟨fun r hr => ⟨(hc.count r hr).2, ?_⟩, fun r hlt hr => ?_, hnamed⟩
  · rw [hfree, hc.free_iff]
    omega
  · rw [hfree]
    exact List.count_eq_one_of_mem hc.nodup ((hc.free_iff r).mpr ⟨hlt, hr⟩)

theorem data_eq (hsame : ∀ r, s.stringReference = some r →
    (h'.pool.data r).data = (h.pool.data r).data) : h'.data s = h.data s := by
  unfold data
  cases href : s.stringReference with
  | none => rfl
  | some r => simp only [hsame r href]

/-- One more object refers to `r` and its count is one higher. -/
theorem Counted.gain (hc : Counted n h avail) (hr : 0 < h.handles r)
    (hroom : h.handles r + 1 < 4294967296)
    (hpool : h'.pool = (h.write r (h.pool.data r).retain).pool)
    (hhandles : ∀ q, h'.handles q = h.handles q + if r = q then 1 else 0) : Counted n h' avail := by
  have hdata : h'.pool.data = Function.update h.pool.data r (h.pool.data r).retain := by
    rw [hpool]
    rfl
  refine ⟨?_, hc.nodup, fun q => ?_, fun q hq => ?_⟩
  · rw [hpool]
    exact ⟨hc.serves.head_mod, hc.serves.tail_mod, hc.serves.holds⟩
  · rw [hc.free_iff, hhandles]
    by_cases heq : r = q
    · subst heq
      omega
    · rw [if_neg heq, Nat.add_zero]
  · rw [hhandles] at hq ⊢
    rw [hdata]
    by_cases heq : r = q
    · subst heq
      obtain ⟨hlt, hcount⟩ := hc.count r hr
      rw [Function.update_self, if_pos rfl]
      refine ⟨hlt, ?_⟩
      show ((h.pool.data r).count + 1).toNat = h.handles r + 1
      rw [UInt32.toNat_add, hcount, UInt32.toNat_one]
      omega
    · rw [if_neg heq, Nat.add_zero] at hq ⊢
      rw [Function.update_of_ne (Ne.symm heq)]
      exact hc.count q hq

/-- A count with no room for one more wraps around. -/
theorem not_exact_of_gain (hroom : ¬ h.handles r + 1 < 4294967296)
    (hhandles : h'.handles r = h.handles r + 1) : ¬ Exact n h' := by
  intro hexact
  have hcount := (hexact.counted r (by omega)).1
  have hlt := (h'.pool.data r).count.toNat_lt
  omega

theorem sameTexts_retain (h : StringHeap) (r : ℕ)
    (hpool : h'.pool = (h.write r (h.pool.data r).retain).pool) : SameTexts h h' := by
  intro q
  rw [hpool]
  show (Function.update h.pool.data r (h.pool.data r).retain q).data = _
  by_cases heq : q = r
  · rw [heq, Function.update_self]
    rfl
  · rw [Function.update_of_ne heq]

/-- What `check_release_current_data` leaves of an object that refers to `r`. -/
structure Released (n : ℕ) (h : StringHeap) (x r : ℕ) (h' : StringHeap) : Prop where
  counted : ∃ avail, Counted n h' avail
  unnamed : ∃ s, h'.object x = some s ∧ s.stringReference = none
  others : ∀ y, y ≠ x → h'.object y = h.object y
  texts : SameTexts h h'
  handles : ∀ q, h'.handles q + (if r = q then 1 else 0) = h.handles q

/-- The last object goes, so the reference is free again. -/
theorem Counted.loseLast (hc : Counted n h avail) (hone : h.handles r = 1)
    (hself : h'.handles r = 0) (hother : ∀ q, r ≠ q → h'.handles q = h.handles q)
    (hpool : h'.pool = (h.write r (h.pool.data r).release.2).pool.release n r) :
    Counted n h' (avail ++ [r]) := by
  have hserves : (h.write r (h.pool.data r).release.2).pool.Serves n avail :=
    ⟨hc.serves.head_mod, hc.serves.tail_mod, hc.serves.holds⟩
  have hused : r ∉ avail := by
    rw [hc.free_iff]
    omega
  have hroom : avail.length < n :=
    PoolBuffer.length_lt_of_used hc.nodup (fun o ho => ((hc.free_iff o).mp ho).1)
      (hc.count r (by omega)).1 hused
  refine ⟨?_, ?_, fun q => ?_, fun q hq => ?_⟩
  · rw [hpool]
    exact hserves.release hroom r
  · exact List.nodup_append.mpr ⟨hc.nodup, List.nodup_singleton r, fun q hq p hp => by
      rw [List.mem_singleton.mp hp]
      rintro rfl
      exact hused hq⟩
  · have hlt := (hc.count r (by omega)).1
    rw [List.mem_append, List.mem_singleton, hc.free_iff]
    by_cases heq : r = q
    · subst heq
      omega
    · rw [hother q heq]
      constructor
      · rintro (hfree | rfl)
        · exact hfree
        · exact absurd rfl heq
      · exact Or.inl
  · have hne : r ≠ q := by
      rintro rfl
      omega
    have hdata : h'.pool.data q = h.pool.data q := by
      rw [hpool]
      show Function.update (Function.update _ r _) r _ q = _
      rw [Function.update_of_ne hne.symm, Function.update_of_ne hne.symm]
    rw [hother q hne] at hq ⊢
    rw [hdata]
    exact hc.count q hq

/-- One object of several goes, and the count is one lower. -/
theorem Counted.loseOne (hc : Counted n h avail) (hmany : 1 < h.handles r)
    (hself : h'.handles r + 1 = h.handles r) (hother : ∀ q, r ≠ q → h'.handles q = h.handles q)
    (hpool : h'.pool = (h.write r (h.pool.data r).release.2).pool) : Counted n h' avail := by
  obtain ⟨hlt, hcount⟩ := hc.count r (by omega)
  have hdata : h'.pool.data = Function.update h.pool.data r (h.pool.data r).release.2 := by
    rw [hpool]
    rfl
  refine ⟨?_, hc.nodup, fun q => ?_, fun q hq => ?_⟩
  · rw [hpool]
    exact ⟨hc.serves.head_mod, hc.serves.tail_mod, hc.serves.holds⟩
  · rw [hc.free_iff]
    by_cases heq : r = q
    · subst heq
      omega
    · rw [hother q heq]
  · rw [hdata]
    by_cases heq : r = q
    · subst heq
      rw [Function.update_self]
      refine ⟨hlt, ?_⟩
      show ((h.pool.data r).count - 1).toNat = h'.handles r
      have hone : (1 : UInt32) ≤ (h.pool.data r).count := by
        rw [UInt32.le_iff_toNat_le, UInt32.toNat_one]
        omega
      rw [UInt32.toNat_sub_of_le _ _ hone, hcount, UInt32.toNat_one]
      omega
    · rw [hother q heq] at hq ⊢
      rw [Function.update_of_ne (Ne.symm heq)]
      exact hc.count q hq

theorem Counted.lose (hc : Counted n h avail) (hr : 0 < h.handles r)
    (hhandles : ∀ q, h'.handles q + (if r = q then 1 else 0) = h.handles q)
    (hpool : h'.pool = if (h.pool.data r).count = 1
      then (h.write r (h.pool.data r).release.2).pool.release n r
      else (h.write r (h.pool.data r).release.2).pool) : ∃ avail', Counted n h' avail' := by
  obtain ⟨_, hcount⟩ := hc.count r hr
  have hself := hhandles r
  rw [if_pos rfl] at hself
  have hother : ∀ q, r ≠ q → h'.handles q = h.handles q := by
    intro q hne
    have hq := hhandles q
    rwa [if_neg hne, Nat.add_zero] at hq
  by_cases hlast : (h.pool.data r).count = 1
  · rw [if_pos hlast] at hpool
    rw [hlast, UInt32.toNat_one] at hcount
    exact ⟨_, hc.loseLast hcount.symm (by omega) hother hpool⟩
  · rw [if_neg hlast] at hpool
    have hne : (h.pool.data r).count.toNat ≠ 1 := by
      intro h1
      apply hlast
      rw [← UInt32.toNat_inj, h1, UInt32.toNat_one]
    exact ⟨_, hc.loseOne (by omega) hself hother hpool⟩

theorem checkReleaseCurrentData_spec (hc : Counted n h avail) (hx : h.object x = some s)
    (hr : s.stringReference = some r) :
    ∃ h', h.checkReleaseCurrentData n x = .ok h' ∧ Released n h x r h' := by
  have hpos := handles_pos hx hr
  -- the pool after the release, and the object without its reference
  let pool := if (h.pool.data r).count = 1
    then (h.write r (h.pool.data r).release.2).pool.release n r
    else (h.write r (h.pool.data r).release.2).pool
  let h' : StringHeap := { h.set x (some { s with stringReference := none }) with pool := pool }
  have hok : h.checkReleaseCurrentData n x = .ok h' := by
    unfold checkReleaseCurrentData get
    simp only [hx, hr, bind, Except.bind]
    by_cases hlast : (h.pool.data r).count = 1
    · simp only [StringReference.release, hlast, if_true, h', pool]
      rfl
    · simp only [StringReference.release, hlast, if_false, h', pool]
      rfl
  have hhandles : ∀ q, h'.handles q + (if r = q then 1 else 0) = h.handles q := by
    intro q
    have hset := handles_set (o := some { s with stringReference := none }) (r := q) hx
    rw [hr] at hset
    simp only [Option.some.injEq, names, Option.bind_some, reduceCtorEq, decide_false,
      Bool.false_eq_true, if_false, Nat.add_zero] at hset
    exact hset
  have hself : h'.object x = some { s with stringReference := none } :=
    object_set_self (h := h) hx
  refine ⟨h', hok, hc.lose hpos hhandles rfl, ⟨_, hself, rfl⟩, fun y hy => ?_, fun q => ?_,
    hhandles⟩
  · exact object_set_of_ne (h := h) hy
  · show (pool.data q).data = _
    have hwritten : ((h.write r (h.pool.data r).release.2).pool.data q).data =
        (h.pool.data q).data := by
      show (Function.update h.pool.data r (h.pool.data r).release.2 q).data = _
      by_cases heq : q = r
      · rw [heq, Function.update_self]
        rfl
      · rw [Function.update_of_ne heq]
    by_cases hlast : (h.pool.data r).count = 1
    · simp only [pool, if_pos hlast]
      rw [← hwritten]
      show (Function.update (h.write r (h.pool.data r).release.2).pool.data r _ q).data = _
      by_cases heq : q = r
      · rw [heq, Function.update_self]
        rfl
      · rw [Function.update_of_ne heq]
    · simp only [pool, if_neg hlast]
      exact hwritten

end Invariant

section Steps

variable {n r x source target : ℕ} {h h' : StringHeap} {s w : ShareString} {avail : List ℕ}
  {op : Op}

/-- What an operation does that meets the condition, and what it misses otherwise. -/
structure Follows (n : ℕ) (h : StringHeap) (op : Op) : Prop where
  sound : h.Sound op → ∃ h', step n h op = .ok h' ∧ Inv n h' ∧ Keeps h op h'
  unsound : ¬ h.Sound op → ∀ h', step n h op = .ok h' → ¬ Exact n h'

theorem object_of_live (hlive : h.Live op) (hx : x ∈ op.operands) : ∃ s, h.object x = some s :=
  Option.ne_none_iff_exists'.mp (hlive x hx)

theorem get_of_some (hx : h.object x = some s) : h.get x = .ok s := by
  unfold get
  rw [hx]

theorem Named.reference (hnamed : h.Named) (hx : h.object x = some s) :
    ∃ r, s.stringReference = some r := Option.ne_none_iff_exists'.mp (hnamed x s hx)

/-- An operation that leaves everything as it is. -/
theorem follows_of_same (hinv : Inv n h) (hstep : step n h op = .ok h) (hsound : h.Sound op) :
    Follows n h op where
  sound _ := by
    refine ⟨h, hstep, hinv, fun x s s' hx hx' _ => ?_⟩
    rw [hx] at hx'
    rw [Option.some.inj hx']
  unsound hnot := absurd hsound hnot

/-- A new object that refers to the text of an object. -/
theorem follows_of_copy (hinv : Inv n h) (hx : h.object source = some s)
    (hr : s.stringReference = some r) (hw : w.stringReference = some r)
    (hstep : step n h op = .ok ((h.write r (h.pool.data r).retain).add w))
    (hapart : ∀ y, op ≠ .copyAssign y y ∧ op ≠ .moveAssign y y) (hgains : op.gains h = some r) :
    Follows n h op := by
  obtain ⟨⟨avail, hc⟩, hnamed⟩ := hinv
  have hpos := handles_pos hx hr
  have hhandles : ∀ q, ((h.write r (h.pool.data r).retain).add w).handles q =
      h.handles q + if r = q then 1 else 0 := by
    intro q
    rw [handles_add, hw]
    simp only [Option.some.injEq]
    rfl
  constructor
  · intro hsound
    have hroom := hsound.room r hgains
    refine ⟨_, hstep, ⟨⟨avail, hc.gain hpos hroom rfl hhandles⟩, ?_⟩, ?_⟩
    · intro y t hy
      rcases eq_of_object_add hy with hold | rfl
      · exact hnamed y t hold
      · rw [hw]
        exact Option.some_ne_none r
    · intro y t t' hy hy' _
      have hkept := object_add_of_some (s := w) (h := h.write r (h.pool.data r).retain) hy
      rw [hkept] at hy'
      rw [← Option.some.inj hy']
      exact data_eq fun q _ => sameTexts_retain h r rfl q
  · intro hnot h' hok
    rw [hstep] at hok
    cases hok
    apply not_exact_of_gain (r := r) (h := h)
    · intro hroom
      apply hnot
      refine ⟨hapart, fun q hq => ?_⟩
      rw [hgains] at hq
      cases hq
      exact hroom
    · rw [hhandles, if_pos rfl]

/-- The heap with a new text under `r`, the reference from the pool, and an object of it. -/
def constructed (h : StringHeap) (pool : PoolBuffer StringReference) (r : ℕ) (text : Text) :
    StringHeap :=
  (StringHeap.write { h with pool := pool } r { data := text, count := 1 }).add
    { stringReference := some r, startIndex := 0, length := UInt64.ofNat text.length }

section Constructed

variable {pool : PoolBuffer StringReference} {rest : List ℕ} {text : Text}

theorem handles_constructed (q : ℕ) :
    (h.constructed pool r text).handles q = h.handles q + if r = q then 1 else 0 := by
  unfold constructed
  rw [handles_add]
  simp only [Option.some.injEq]
  rfl

theorem data_constructed_of_ne (hdata : ∀ q, r ≠ q → pool.data q = h.pool.data q) {q : ℕ}
    (hne : r ≠ q) : (h.constructed pool r text).pool.data q = h.pool.data q := by
  show Function.update pool.data r _ q = _
  rw [Function.update_of_ne hne.symm, hdata q hne]

theorem Counted.constructed (hc : Counted n h (r :: rest)) (hserves : pool.Serves n rest)
    (hdata : ∀ q, r ≠ q → pool.data q = h.pool.data q) :
    Counted n (h.constructed pool r text) rest := by
  obtain ⟨hfresh, hrest⟩ := List.nodup_cons.mp hc.nodup
  obtain ⟨hlt, hzero⟩ := (hc.free_iff r).mp (List.mem_cons_self ..)
  refine ⟨⟨hserves.head_mod, hserves.tail_mod, hserves.holds⟩, hrest, fun q => ?_, fun q hq => ?_⟩
  · have hiff := hc.free_iff q
    rw [handles_constructed]
    by_cases heq : r = q
    · subst heq
      rw [if_pos rfl]
      exact ⟨fun hq => absurd hq hfresh, fun hq => by omega⟩
    · rw [if_neg heq, Nat.add_zero, ← hiff, List.mem_cons]
      exact ⟨Or.inr, fun hq => hq.resolve_left (Ne.symm heq)⟩
  · rw [handles_constructed] at hq ⊢
    by_cases heq : r = q
    · subst heq
      rw [if_pos rfl, hzero]
      refine ⟨hlt, ?_⟩
      show (Function.update pool.data r { data := text, count := 1 } r).count.toNat = 0 + 1
      rw [Function.update_self]
      rfl
    · rw [if_neg heq, Nat.add_zero] at hq ⊢
      rw [data_constructed_of_ne hdata heq]
      exact hc.count q hq

end Constructed

theorem follows_construct (hinv : Inv n h) (text : Text) : Follows n h (.construct text) := by
  have hsound : h.Sound (.construct text) :=
    ⟨fun x => ⟨by simp, by simp⟩, fun r hr => by cases hr⟩
  cases hacquire : h.pool.acquire n with
  | error e =>
    apply follows_of_same hinv _ hsound
    simp only [step, construct, hacquire]
    rfl
  | ok result =>
    obtain ⟨r, pool⟩ := result
    obtain ⟨⟨avail, hc⟩, hnamed⟩ := hinv
    obtain ⟨_, ⟨rest, rfl, hserves⟩, hupdate⟩ := hc.serves.acquire hacquire
    have hdata : ∀ q, r ≠ q → pool.data q = h.pool.data q := by
      intro q hne
      rw [hupdate, Function.update_of_ne hne.symm]
    have hstep : step n h (.construct text) = .ok (h.constructed pool r text) := by
      simp only [step, construct, hacquire]
      rfl
    refine ⟨fun _ => ⟨_, hstep, ⟨⟨rest, hc.constructed hserves hdata⟩, ?_⟩, ?_⟩,
      fun hnot => absurd hsound hnot⟩
    · intro y t hy
      rcases eq_of_object_add hy with hold | rfl
      · exact hnamed y t hold
      · exact Option.some_ne_none r
    · intro y t t' hy hy' _
      have hkept : (h.constructed pool r text).object y = some t :=
        object_add_of_some (h := StringHeap.write { h with pool := pool } r _) hy
      rw [hkept] at hy'
      rw [← Option.some.inj hy']
      -- an object that lives does not refer to a reference from the pool
      apply data_eq
      intro q hq
      have hpos := handles_pos hy hq
      have hzero := ((hc.free_iff r).mp (List.mem_cons_self ..)).2
      rw [data_constructed_of_ne hdata]
      rintro rfl
      omega

theorem follows_destroy (hinv : Inv n h) (hlive : h.Live (.destroy x)) :
    Follows n h (.destroy x) := by
  have hsound : h.Sound (.destroy x) :=
    ⟨fun x => ⟨by simp, by simp⟩, fun r hr => by cases hr⟩
  obtain ⟨⟨avail, hc⟩, hnamed⟩ := hinv
  obtain ⟨s, hx⟩ := object_of_live hlive (List.mem_singleton_self x)
  obtain ⟨r, hr⟩ := hnamed.reference hx
  obtain ⟨h₁, hok, hreleased⟩ := checkReleaseCurrentData_spec hc hx hr
  obtain ⟨avail₁, hc₁⟩ := hreleased.counted
  obtain ⟨s₁, hx₁, hnone⟩ := hreleased.unnamed
  have hstep : step n h (.destroy x) = .ok (h₁.set x none) := by
    simp only [step, destroy, hok]
    rfl
  have hhandles : ∀ q, (h₁.set x none).handles q = h₁.handles q := by
    intro q
    have hset := handles_set (o := none) (r := q) hx₁
    rw [hnone] at hset
    simpa [names] using hset
  have hobject : ∀ y, y ≠ x → (h₁.set x none).object y = h.object y := by
    intro y hy
    rw [object_set_of_ne hy, hreleased.others y hy]
  have hdead : (h₁.set x none).object x = none := object_set_self hx₁
  refine ⟨fun _ => ⟨_, hstep, ⟨⟨avail₁, hc₁.serves, hc₁.nodup, fun q => ?_, fun q hq => ?_⟩, ?_⟩,
    ?_⟩, fun hnot => absurd hsound hnot⟩
  · rw [hhandles]
    exact hc₁.free_iff q
  · rw [hhandles] at hq ⊢
    exact hc₁.count q hq
  · intro y t hy
    by_cases heq : y = x
    · rw [heq, hdead] at hy
      cases hy
    · rw [hobject y heq] at hy
      exact hnamed y t hy
  · intro y t t' hy hy' _
    by_cases heq : y = x
    · rw [heq, hdead] at hy'
      cases hy'
    · rw [hobject y heq, hy] at hy'
      rw [← Option.some.inj hy']
      exact data_eq fun q _ => hreleased.texts q

/-- What an assignment of `s` leaves, where the target referred to `old` and `h₁` is what its
release has left. -/
structure Assigned (n : ℕ) (h : StringHeap) (target : ℕ) (s : ShareString) (old new : ℕ)
    (h₁ h' : StringHeap) : Prop where
  released : Released n h target old h₁
  taken : 0 < h₁.handles new
  pool : h'.pool = (h₁.write new (h₁.pool.data new).retain).pool
  handles : ∀ q, h'.handles q = h₁.handles q + if new = q then 1 else 0
  self : h'.object target = some s
  others : ∀ y, y ≠ target → h'.object y = h.object y

theorem assign_spec (hc : Counted n h avail) (ht : h.object target = some w)
    (hs : h.object source = some s) (hne : target ≠ source) {old new : ℕ}
    (hold : w.stringReference = some old) (hnew : s.stringReference = some new) :
    ∃ h₁ h', h.assign n target source = .ok h' ∧ Assigned n h target s old new h₁ h' := by
  obtain ⟨h₁, hok, hreleased⟩ := checkReleaseCurrentData_spec hc ht hold
  obtain ⟨w₁, ht₁, hnone⟩ := hreleased.unnamed
  have hs₁ : h₁.object source = some s := by
    rw [hreleased.others source hne.symm, hs]
  refine ⟨h₁, (h₁.write new (h₁.pool.data new).retain).set target (some s), ?_,
    hreleased, handles_pos hs₁ hnew, rfl, fun q => ?_, ?_, fun y hy => ?_⟩
  · unfold assign
    rw [hok]
    show (h₁.get source >>= _) = _
    rw [get_of_some hs₁]
    show (h₁.retain s.stringReference >>= _) = _
    rw [hnew]
    rfl
  · have hset := handles_set (h := h₁.write new (h₁.pool.data new).retain) (o := some s) (r := q)
      ht₁
    rw [hnone] at hset
    simp only [names, hnew, Option.bind_some, Option.some.injEq, reduceCtorEq, if_false,
      Nat.add_zero, decide_eq_true_eq] at hset
    exact hset
  · exact object_set_self (h := h₁.write new (h₁.pool.data new).retain) ht₁
  · rw [← hreleased.others y hy]
    exact object_set_of_ne hy

/-- There is room for the count of an assignment unless it goes up. -/
theorem room_iff_of_released (hc : Counted n h avail) (ht : h.object target = some w)
    (hs : h.object source = some s) {old new : ℕ} (hold : w.stringReference = some old)
    (hnew : s.stringReference = some new) {h₁ : StringHeap}
    (hreleased : Released n h target old h₁) (hpos : 0 < h₁.handles new)
    (hgains : op.gains h = Op.gains.gainsAssigned h target source) :
    h₁.handles new + 1 < 4294967296 ↔
      ∀ r, op.gains h = some r → h.handles r + 1 < 4294967296 := by
  have hhandles := hreleased.handles new
  rw [hgains]
  unfold Op.gains.gainsAssigned
  rw [hs, ht, Option.bind_some, Option.bind_some, hold, hnew]
  by_cases hsame : new = old
  · -- the released reference is the one that is taken again
    rw [if_pos hsame.symm] at hhandles
    rw [if_pos (by rw [hsame])]
    have hcount := (hc.count new (by omega)).2
    have hlt := (h.pool.data new).count.toNat_lt
    constructor
    · intro _ r hr
      cases hr
    · intro _
      omega
  · rw [if_neg (Ne.symm hsame), Nat.add_zero] at hhandles
    rw [if_neg (fun heq => hsame (Option.some.inj heq)), hhandles]
    simp

/-- An assignment from another object. -/
theorem follows_of_assign (hinv : Inv n h) (ht : h.object target = some w)
    (hs : h.object source = some s) (hne : target ≠ source)
    (hstep : step n h op = h.assign n target source)
    (hapart : ∀ y, op ≠ .copyAssign y y ∧ op ≠ .moveAssign y y)
    (hassigned : op.assigned = some target)
    (hgains : op.gains h = Op.gains.gainsAssigned h target source) : Follows n h op := by
  obtain ⟨⟨avail, hc⟩, hnamed⟩ := hinv
  obtain ⟨old, hold⟩ := hnamed.reference ht
  obtain ⟨new, hnew⟩ := hnamed.reference hs
  obtain ⟨h₁, h', hok, hleft⟩ := assign_spec hc ht hs hne hold hnew
  obtain ⟨avail₁, hc₁⟩ := hleft.released.counted
  have hroom := room_iff_of_released hc ht hs hold hnew hleft.released hleft.taken hgains
  rw [← hstep] at hok
  constructor
  · intro hsound
    have hcounted := hc₁.gain hleft.taken (hroom.mpr hsound.room) hleft.pool hleft.handles
    refine ⟨h', hok, ⟨⟨avail₁, hcounted⟩, fun y t hy => ?_⟩, fun y t t' hy hy' hnot => ?_⟩
    · by_cases heq : y = target
      · rw [heq, hleft.self] at hy
        rw [← Option.some.inj hy, hnew]
        exact Option.some_ne_none new
      · rw [hleft.others y heq] at hy
        exact hnamed y t hy
    · have heq : y ≠ target := by
        rintro rfl
        exact hnot hassigned
      rw [hleft.others y heq, hy] at hy'
      rw [← Option.some.inj hy']
      apply data_eq
      intro q _
      rw [sameTexts_retain h₁ new hleft.pool q, hleft.released.texts q]
  · intro hnot h'' hok'
    rw [hok] at hok'
    cases hok'
    apply not_exact_of_gain (r := new) (h := h₁)
    · intro hlt
      exact hnot ⟨hapart, hroom.mp hlt⟩
    · rw [hleft.handles, if_pos rfl]

/-- An assignment of an object to itself reads the reference that it has just given up. -/
theorem assign_self (hinv : Inv n h) (hx : h.object x = some s) :
    h.assign n x x = .error .nullPointer := by
  obtain ⟨⟨avail, hc⟩, hnamed⟩ := hinv
  obtain ⟨r, hr⟩ := hnamed.reference hx
  obtain ⟨h₁, hok, hreleased⟩ := checkReleaseCurrentData_spec hc hx hr
  obtain ⟨s₁, hx₁, hnone⟩ := hreleased.unnamed
  unfold assign
  rw [hok]
  show (h₁.get x >>= _) = _
  rw [get_of_some hx₁]
  show (h₁.retain s₁.stringReference >>= _) = _
  rw [hnone]
  rfl

/-- A substring either throws or is a new object of the same text. -/
theorem follows_of_substring (hinv : Inv n h) (hx : h.object source = some s)
    {window : ShareString → Except Failure ShareString}
    (hwindow : ∀ w, window s = .ok w → w.stringReference = s.stringReference)
    (hstep : step n h op = h.addSubstring s (window s))
    (hapart : ∀ y, op ≠ .copyAssign y y ∧ op ≠ .moveAssign y y)
    (hgains : op.gains h = Op.gains.gainsWindow h source window) : Follows n h op := by
  unfold Op.gains.gainsWindow at hgains
  rw [hx, Option.bind_some] at hgains
  cases hresult : window s with
  | error e =>
    rw [hresult] at hstep hgains
    refine follows_of_same hinv hstep ⟨hapart, fun r hr => ?_⟩
    rw [hgains] at hr
    cases hr
  | ok w =>
    rw [hresult] at hstep hgains
    obtain ⟨r, hr⟩ := hinv.2.reference hx
    refine follows_of_copy hinv hx hr ((hwindow w hresult).trans hr) ?_ hapart (hgains.trans hr)
    rw [hstep]
    unfold addSubstring
    rw [hr]
    rfl

theorem reference_fromSubstr {startIndex length : UInt64}
    (hok : s.fromSubstr startIndex length = .ok w) : w.stringReference = s.stringReference := by
  unfold ShareString.fromSubstr at hok
  split at hok
  · cases hok
    rfl
  · cases hok

theorem reference_fromSubstrWithEnd {startIndex endIndex : UInt64}
    (hok : s.fromSubstrWithEnd startIndex endIndex = .ok w) :
    w.stringReference = s.stringReference := by
  unfold ShareString.fromSubstrWithEnd at hok
  split at hok
  · cases hok
    rfl
  · cases hok

/-- A new object of the text of another one. -/
theorem follows_of_construct (hinv : Inv n h) (hx : h.object source = some s)
    (hstep : step n h op = h.copy s)
    (hapart : ∀ y, op ≠ .copyAssign y y ∧ op ≠ .moveAssign y y)
    (hgains : op.gains h = s.stringReference) : Follows n h op := by
  obtain ⟨r, hr⟩ := hinv.2.reference hx
  refine follows_of_copy hinv hx hr hr ?_ hapart (hgains.trans hr)
  rw [hstep]
  unfold copy
  rw [hr]
  rfl

/-- An assignment from the object itself does not end, and does not meet the condition. -/
theorem follows_of_assignment (hinv : Inv n h) (ht : h.object target = some w)
    (hs : h.object source = some s) (hstep : step n h op = h.assign n target source)
    (hself : target ≠ source ↔ ∀ y, op ≠ .copyAssign y y ∧ op ≠ .moveAssign y y)
    (hassigned : op.assigned = some target)
    (hgains : op.gains h = Op.gains.gainsAssigned h target source) : Follows n h op := by
  by_cases hne : target = source
  · subst hne
    refine ⟨fun hsound => absurd rfl (hself.mpr hsound.apart), fun _ h' hok => ?_⟩
    rw [hstep, assign_self hinv ht] at hok
    cases hok
  · exact follows_of_assign hinv ht hs hne hstep (hself.mp hne) hassigned hgains

/-- Every operation on living objects follows the invariant exactly when it meets the condition. -/
theorem follows_of_live (hinv : Inv n h) (hlive : h.Live op) : Follows n h op := by
  cases op with
  | construct text => exact follows_construct hinv text
  | copyConstruct source =>
    obtain ⟨s, hx⟩ := object_of_live hlive (List.mem_singleton_self source)
    refine follows_of_construct hinv hx ?_ (fun y => ⟨by simp, by simp⟩) ?_
    · simp only [step, copyConstruct, get_of_some hx]
      rfl
    · simp only [Op.gains, hx, Option.bind_some]
  | moveConstruct source =>
    obtain ⟨s, hx⟩ := object_of_live hlive (List.mem_singleton_self source)
    refine follows_of_construct hinv hx ?_ (fun y => ⟨by simp, by simp⟩) ?_
    · simp only [step, moveConstruct, get_of_some hx]
      rfl
    · simp only [Op.gains, hx, Option.bind_some]
  | copyAssign target source =>
    have htarget : target ∈ (Op.copyAssign target source).operands := by simp [Op.operands]
    have hsource : source ∈ (Op.copyAssign target source).operands := by simp [Op.operands]
    obtain ⟨w, ht⟩ := object_of_live hlive htarget
    obtain ⟨s, hs⟩ := object_of_live hlive hsource
    exact follows_of_assignment hinv ht hs rfl (by simp [eq_comm]) rfl rfl
  | moveAssign target source =>
    have htarget : target ∈ (Op.moveAssign target source).operands := by simp [Op.operands]
    have hsource : source ∈ (Op.moveAssign target source).operands := by simp [Op.operands]
    obtain ⟨w, ht⟩ := object_of_live hlive htarget
    obtain ⟨s, hs⟩ := object_of_live hlive hsource
    exact follows_of_assignment hinv ht hs rfl (by simp [eq_comm]) rfl rfl
  | fromSubstr source startIndex length =>
    obtain ⟨s, hx⟩ := object_of_live hlive (List.mem_singleton_self source)
    refine follows_of_substring hinv hx (fun w hw => reference_fromSubstr hw) ?_
      (fun y => ⟨by simp, by simp⟩) rfl
    simp only [step, fromSubstr, get_of_some hx]
    rfl
  | fromSubstrWithEnd source startIndex endIndex =>
    obtain ⟨s, hx⟩ := object_of_live hlive (List.mem_singleton_self source)
    refine follows_of_substring hinv hx (fun w hw => reference_fromSubstrWithEnd hw) ?_
      (fun y => ⟨by simp, by simp⟩) rfl
    simp only [step, fromSubstrWithEnd, get_of_some hx]
    rfl
  | destroy x => exact follows_destroy hinv hlive

theorem Follows.right_iff (hfollows : Follows n h op) : Right n h op ↔ h.Sound op := by
  constructor
  · rintro ⟨h', hok, hexact, _⟩
    by_contra hnot
    exact hfollows.unsound hnot h' hok hexact
  · intro hsound
    obtain ⟨h', hok, hinv', hkeeps⟩ := hfollows.sound hsound
    exact ⟨h', hok, hinv'.exact, hkeeps⟩

end Steps

section Runs

/-- The counts are exact from the start on, along every operation on living objects. -/
def CountsExactly (n : ℕ) (ops : List Op) : Prop :=
  Exact n (new n) ∧ Along (step n) (fun h op => h.Live op → Right n h op) (new n) ops

/-- Every operation on living objects meets the condition. -/
def SoundAlong (n : ℕ) (ops : List Op) : Prop :=
  Along (step n) (fun h op => h.Live op → h.Sound op) (new n) ops

theorem live_of_get {h h' : StringHeap} {x : ℕ} {f : ShareString → Except Fault StringHeap}
    (hok : (h.get x >>= f) = .ok h') : h.object x ≠ none := by
  intro hnone
  unfold get at hok
  rw [hnone] at hok
  cases hok

theorem live_of_release {n x : ℕ} {h h' : StringHeap} {f : StringHeap → Except Fault StringHeap}
    (hok : (h.checkReleaseCurrentData n x >>= f) = .ok h') : h.object x ≠ none := by
  intro hnone
  unfold checkReleaseCurrentData get at hok
  rw [hnone] at hok
  cases hok

theorem live_of_assign {n target source : ℕ} {h h' : StringHeap} (hinv : Inv n h)
    (hok : h.assign n target source = .ok h') :
    h.object target ≠ none ∧ h.object source ≠ none := by
  have ht : h.object target ≠ none := live_of_release hok
  refine ⟨ht, ?_⟩
  by_cases hne : source = target
  · rwa [hne]
  · obtain ⟨⟨avail, hc⟩, hnamed⟩ := hinv
    obtain ⟨w, hw⟩ := Option.ne_none_iff_exists'.mp ht
    obtain ⟨r, hr⟩ := hnamed.reference hw
    obtain ⟨h₁, hreleased, hspec⟩ := checkReleaseCurrentData_spec hc hw hr
    unfold assign at hok
    rw [hreleased] at hok
    rw [← hspec.others source hne]
    exact live_of_get hok

/-- An operation on an object that does not live is no step. -/
theorem live_of_step {n : ℕ} {h h' : StringHeap} {op : Op} (hinv : Inv n h)
    (hok : step n h op = .ok h') : h.Live op := by
  intro x hx
  cases op with
  | construct text => cases hx
  | copyConstruct source =>
    rw [List.mem_singleton.mp hx]
    exact live_of_get hok
  | moveConstruct source =>
    rw [List.mem_singleton.mp hx]
    exact live_of_get hok
  | copyAssign target source =>
    obtain ⟨ht, hs⟩ := live_of_assign hinv hok
    rcases List.mem_pair.mp hx with rfl | rfl
    · exact ht
    · exact hs
  | moveAssign target source =>
    obtain ⟨ht, hs⟩ := live_of_assign hinv hok
    rcases List.mem_pair.mp hx with rfl | rfl
    · exact ht
    · exact hs
  | fromSubstr source startIndex length =>
    rw [List.mem_singleton.mp hx]
    exact live_of_get hok
  | fromSubstrWithEnd source startIndex endIndex =>
    rw [List.mem_singleton.mp hx]
    exact live_of_get hok
  | destroy y =>
    rw [List.mem_singleton.mp hx]
    exact live_of_release hok

/-- The counts are exact in every state of a run exactly when no object is assigned to itself and
no count runs out of room. -/
theorem countsExactly_iff_soundAlong (ops : List Op) :
    CountsExactly maxStringNum ops ↔ SoundAlong maxStringNum ops := by
  have hiff : ∀ h op, Inv maxStringNum h → True →
      ((h.Live op → Right maxStringNum h op) ↔ (h.Live op → h.Sound op)) := by
    intro h op hinv _
    exact forall_congr' fun hlive => (follows_of_live hinv hlive).right_iff
  have halong : Along (step maxStringNum) (fun h op => h.Live op → Right maxStringNum h op)
      (new maxStringNum) ops ↔ SoundAlong maxStringNum ops := by
    apply along_iff (Inv maxStringNum) (fun _ => True)
    · intro h op h' hinv _ hright hok
      have hlive := live_of_step hinv hok
      have hfollows := follows_of_live hinv hlive
      obtain ⟨h'', hok', hinv', _⟩ := hfollows.sound (hfollows.right_iff.mp (hright hlive))
      rw [hok] at hok'
      cases hok'
      exact hinv'
    · exact hiff
    · exact inv_new maxStringNum
    · exact fun _ _ => trivial
  unfold CountsExactly
  rw [halong]
  exact and_iff_right (inv_new maxStringNum).exact

/-- A string that is assigned to itself. -/
theorem not_countsExactly_assignSelf :
    ¬ CountsExactly maxStringNum [.construct ['a'], .copyAssign 0 0] := by
  rintro ⟨_, _, hrest⟩
  have hlive : ∀ h', step maxStringNum (new maxStringNum) (.construct ['a']) = .ok h' →
      h'.Live (.copyAssign 0 0) ∧ step maxStringNum h' (.copyAssign 0 0) = .error .nullPointer := by
    rintro h' hok
    cases hok
    refine ⟨fun x hx => ?_, rfl⟩
    have hzero : x = 0 := by simpa [Op.operands] using hx
    rw [hzero]
    exact Option.some_ne_none _
  have hfirst : ∃ h', step maxStringNum (new maxStringNum) (.construct ['a']) = .ok h' := ⟨_, rfl⟩
  obtain ⟨h', hok⟩ := hfirst
  obtain ⟨hl, hcrash⟩ := hlive h' hok
  obtain ⟨h'', hok', _⟩ := (hrest h' hok).1 hl
  rw [hcrash] at hok'
  cases hok'

end Runs

end OrderBookServer.StringHeap
