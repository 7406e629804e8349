import Mathlib.Data.List.Nodup
import OrderBookServer.CachePool
import OrderBookServer.Json
import OrderBookServer.Runs

/-!
Handles over pooled values. A handle refers to an object of the pool, and objects come back
to the pool with the flag `m_is_string_format` they had. A value is written as if its handle
had an object of its own as long as no assignment takes an object whose flag is cleared.
-/
namespace OrderBookServer

variable {δ : Type}

/-- An object of `JsonValuePool`. Its class has neither `init` nor `clear`. -/
structure PooledValue (δ : Type) where
  value : JsonValue δ
  isStringFormat : Bool
deriving DecidableEq, Repr

instance : Pooled (PooledValue δ) where

/-- The handles by name, each with its `m_value`. A handle that refers to nothing is as the
default constructor leaves it. -/
structure JsonHeap (δ : Type) where
  pool : PoolBuffer (PooledValue δ)
  handles : ℕ → Option ℕ

namespace JsonHeap

/-- An operation on handles. A handle that is assigned a scalar may be a new one. -/
inductive Op (δ : Type)
  | assign (h : ℕ) (value : JsonValue δ)
  | setIsStringFormat (h : ℕ) (val : Bool)
  | copy (source target : ℕ)
  | destroy (h : ℕ)

def Op.names : Op δ → List ℕ
  | .assign h _ => [h]
  | .setIsStringFormat h _ => [h]
  | .copy source target => [source, target]
  | .destroy h => [h]

def new (n : ℕ) : JsonHeap δ := ⟨.new n ⟨.null, true⟩, fun _ => none⟩

def object (s : JsonHeap δ) (o : ℕ) : PooledValue δ := s.pool.data o

def write (s : JsonHeap δ) (o : ℕ) (x : PooledValue δ) : JsonHeap δ :=
  { s with pool := { s.pool with data := Function.update s.pool.data o x } }

def refer (s : JsonHeap δ) (h : ℕ) (m_value : Option ℕ) : JsonHeap δ :=
  { s with handles := Function.update s.handles h m_value }

section Operations

variable (n : ℕ) (s : JsonHeap δ)

def acquire : Except PoolError (ℕ × JsonHeap δ) := do
  let (o, pool) ← s.pool.acquire n
  pure (o, { s with pool })

/-- `check_create_json_value`, where no handle refers to a `JsonObject`. -/
def checkCreateJsonValue (h : ℕ) : Except PoolError (ℕ × JsonHeap δ) :=
  match s.handles h with
  | some o => pure (o, s)
  | none => do
    let (o, s) ← s.acquire n
    pure (o, s.refer h (some o))

/-- `operator=` of a scalar or a string. -/
def assign (h : ℕ) (value : JsonValue δ) : Except PoolError (JsonHeap δ) := do
  let (o, s) ← s.checkCreateJsonValue n h
  pure (s.write o { s.object o with value })

def setIsStringFormat (h : ℕ) (val : Bool) : JsonHeap δ :=
  match s.handles h with
  | some o => s.write o { s.object o with isStringFormat := val }
  | none => s

def getCopy (o : ℕ) : Except PoolError (ℕ × JsonHeap δ) := do
  let (o', s) ← s.acquire n
  pure (o', s.write o' ⟨(s.object o).value, (s.object o).isStringFormat⟩)

/-- `JsonValue::release`. -/
def release (o : ℕ) : JsonHeap δ :=
  let s := s.write o { s.object o with value := .null }
  { s with pool := s.pool.release n o }

/-- The copy constructor: `copy.m_value ? copy.m_value->get_copy() : nullptr`. -/
def referToCopy (source target : ℕ) : Except PoolError (JsonHeap δ) :=
  match s.handles source with
  | some o => do
    let (o', s) ← s.getCopy n o
    pure (s.refer target (some o'))
  | none => pure (s.refer target none)

/-- `operator=(const Json&)`. -/
def copy (source target : ℕ) : Except PoolError (JsonHeap δ) :=
  if source = target then pure s
  else
    match s.handles target with
    | some o => (s.release n o).referToCopy n source target
    | none => s.referToCopy n source target

/-- `~Json`. -/
def destroy (h : ℕ) : JsonHeap δ :=
  match s.handles h with
  | some o => (s.release n o).refer h none
  | none => s

def step : Op δ → Except PoolError (JsonHeap δ)
  | .assign h value => s.assign n h value
  | .setIsStringFormat h val => pure (s.setIsStringFormat h val)
  | .copy source target => s.copy n source target
  | .destroy h => pure (s.destroy n h)

end Operations

/-- What a handle refers to. -/
def tree (s : JsonHeap δ) (h : ℕ) : Json δ :=
  match s.handles h with
  | some o => .value (s.object o).value (s.object o).isStringFormat
  | none => .null

def text [CharConv δ] (s : JsonHeap δ) (h : ℕ) : Text := (s.tree h).getStringValue

/-- The flag of the object that the pool hands out next. -/
def headFlag (s : JsonHeap δ) : Bool :=
  (s.object (s.pool.availableItems s.pool.head)).isStringFormat

/-- An assignment to a handle that refers to nothing takes an object with its flag set. -/
def TakesFormatted (s : JsonHeap δ) : Op δ → Prop
  | .assign h _ => s.handles h = none → s.headFlag = true
  | _ => True

section Purpose

/-- Handles with a value each, and a flag that a new value has set. -/
abbrev Document (δ : Type) := ℕ → Json δ

def assignTree (flag : Bool) (value : JsonValue δ) : Json δ → Json δ
  | .value _ isStringFormat => .value value isStringFormat
  | _ => .value value flag

def formatTree (val : Bool) : Json δ → Json δ
  | .value value _ => .value value val
  | tree => tree

def applyOp (d : Document δ) : Op δ → Document δ
  | .assign h value => Function.update d h (assignTree true value (d h))
  | .setIsStringFormat h val => Function.update d h (formatTree val (d h))
  | .copy source target => Function.update d target (d source)
  | .destroy h => Function.update d h .null

/-- What the operations do to some handles depends on these only. -/
theorem applyOp_congr {d d' : Document δ} {op : Op δ} {names : ℕ → Prop}
    (hnames : ∀ h ∈ op.names, names h) (heq : ∀ h, names h → d h = d' h) :
    ∀ h, names h → applyOp d op h = applyOp d' op h := by
  intro k hk
  cases op with
  | assign h value =>
    have hh := heq h (hnames h (List.mem_singleton_self h))
    by_cases hkh : k = h
    · simp only [applyOp, hkh, Function.update_self, hh]
    · simp only [applyOp, Function.update_of_ne hkh, heq k hk]
  | setIsStringFormat h val =>
    have hh := heq h (hnames h (List.mem_singleton_self h))
    by_cases hkh : k = h
    · simp only [applyOp, hkh, Function.update_self, hh]
    · simp only [applyOp, Function.update_of_ne hkh, heq k hk]
  | copy source target =>
    have hsource := heq source (hnames source (List.mem_cons_self ..))
    by_cases hkt : k = target
    · simp only [applyOp, hkt, Function.update_self, hsource]
    · simp only [applyOp, Function.update_of_ne hkt, heq k hk]
  | destroy h =>
    by_cases hkh : k = h
    · simp only [applyOp, hkh, Function.update_self]
    · simp only [applyOp, Function.update_of_ne hkh, heq k hk]

theorem foldl_applyOp_congr {d d' : Document δ} {ops : List (Op δ)} (names : ℕ → Prop)
    (hnames : ∀ op ∈ ops, ∀ h ∈ op.names, names h) (heq : ∀ h, names h → d h = d' h) :
    ∀ h, names h → ops.foldl applyOp d h = ops.foldl applyOp d' h := by
  induction ops generalizing d d' with
  | nil => exact heq
  | cons op ops ih =>
    exact ih (fun op' hop => hnames op' (List.mem_cons_of_mem op hop))
      (applyOp_congr (hnames op (List.mem_cons_self ..)) heq)

end Purpose

section Ownership

variable {n o h k : ℕ} {s s' : JsonHeap δ} {avail : List ℕ}

/-- An object is in the pool once, or one handle refers to it. -/
structure Owns (n : ℕ) (s : JsonHeap δ) (avail : List ℕ) : Prop where
  serves : s.pool.Serves n avail
  nodup : avail.Nodup
  small : ∀ o ∈ avail, o < n
  apart : ∀ h o, s.handles h = some o → o ∉ avail ∧ o < n
  once : ∀ h k o, s.handles h = some o → s.handles k = some o → h = k

theorem owns_new (n : ℕ) : Owns n (new n : JsonHeap δ) (List.range n) where
  serves := PoolBuffer.serves_new n _
  nodup := List.nodup_range
  small _ ho := List.mem_range.mp ho
  apart _ _ hh := by cases hh
  once _ _ _ hh := by cases hh

theorem Owns.write (howns : Owns n s avail) (o : ℕ) (x : PooledValue δ) :
    Owns n (s.write o x) avail where
  serves := ⟨howns.serves.head_mod, howns.serves.tail_mod, howns.serves.holds⟩
  nodup := howns.nodup
  small := howns.small
  apart := howns.apart
  once := howns.once

/-- An object that is acquired is the one at the head of the pool, as it was left. -/
theorem Owns.acquire (howns : Owns n s avail) (hok : s.acquire n = .ok (o, s')) :
    o = s.pool.availableItems s.pool.head ∧ s'.handles = s.handles ∧ s'.object = s.object ∧
      ∃ rest, avail = o :: rest ∧ s'.pool.Serves n rest := by
  unfold JsonHeap.acquire at hok
  cases hpool : s.pool.acquire n with
  | error e =>
    rw [hpool] at hok
    cases hok
  | ok r =>
    obtain ⟨item, pool⟩ := r
    rw [hpool] at hok
    cases hok
    obtain ⟨hitem, hrest, hdata⟩ := howns.serves.acquire hpool
    refine ⟨hitem, rfl, ?_, hrest⟩
    have hsame : Pooled.init (s.pool.data o) = s.pool.data o := rfl
    rw [hsame, Function.update_eq_self] at hdata
    exact hdata

/-- A handle that refers to nothing takes an object of the pool. -/
theorem Owns.take (howns : Owns n s avail) (hok : s.acquire n = .ok (o, s'))
    (hnone : s.handles h = none) : ∃ rest, Owns n (s'.refer h (some o)) rest := by
  obtain ⟨_, hhandles, _, rest, rfl, hserves⟩ := howns.acquire hok
  obtain ⟨hout, hnodup⟩ := List.nodup_cons.mp howns.nodup
  have hcases : ∀ k o', (s'.refer h (some o)).handles k = some o' →
      k = h ∧ o' = o ∨ k ≠ h ∧ s.handles k = some o' := by
    intro k o' hk
    change Function.update s'.handles h (some o) k = some o' at hk
    by_cases hkh : k = h
    · rw [hkh, Function.update_self] at hk
      cases hk
      exact Or.inl ⟨hkh, rfl⟩
    · rw [Function.update_of_ne hkh, hhandles] at hk
      exact Or.inr ⟨hkh, hk⟩
  have hfree : ∀ k, s.handles k ≠ some o := by
    intro k hk
    exact (howns.apart k o hk).1 (List.mem_cons_self ..)
  refine ⟨rest, hserves, hnodup, fun o' ho' => howns.small o' (List.mem_cons_of_mem o ho'),
    fun k o' hk => ?_, fun k k' o' hk hk' => ?_⟩
  · rcases hcases k o' hk with ⟨_, rfl⟩ | ⟨_, hold⟩
    · exact ⟨hout, howns.small o' (List.mem_cons_self ..)⟩
    · obtain ⟨hapart, hsmall⟩ := howns.apart k o' hold
      exact ⟨fun hmem => hapart (List.mem_cons_of_mem o hmem), hsmall⟩
  · rcases hcases k o' hk with ⟨rfl, rfl⟩ | ⟨_, hold⟩
    · rcases hcases k' o' hk' with ⟨rfl, _⟩ | ⟨_, hold'⟩
      · rfl
      · exact absurd hold' (hfree k')
    · rcases hcases k' o' hk' with ⟨_, rfl⟩ | ⟨_, hold'⟩
      · exact absurd hold (hfree k)
      · exact howns.once k k' o' hold hold'

/-- A handle gives the object it refers to back to the pool. -/
theorem Owns.give (howns : Owns n s avail) (hh : s.handles h = some o) :
    Owns n ((s.release n o).refer h none) (avail ++ [o]) := by
  obtain ⟨hout, hsmall⟩ := howns.apart h o hh
  have hcases : ∀ k o', ((s.release n o).refer h none).handles k = some o' →
      s.handles k = some o' ∧ o' ≠ o := by
    intro k o' hk
    change Function.update s.handles h none k = some o' at hk
    by_cases hkh : k = h
    · rw [hkh, Function.update_self] at hk
      cases hk
    · rw [Function.update_of_ne hkh] at hk
      refine ⟨hk, fun heq => hkh ?_⟩
      rw [heq] at hk
      exact howns.once k h o hk hh
  refine ⟨?_, ?_, fun o' ho' => ?_, fun k o' hk => ?_, fun k k' o' hk hk' => ?_⟩
  · have hroom := PoolBuffer.length_lt_of_used howns.nodup howns.small hsmall hout
    exact (howns.write o { s.object o with value := .null }).serves.release hroom o
  · rw [List.nodup_append]
    refine ⟨howns.nodup, List.nodup_singleton o, fun a ha b hb heq => ?_⟩
    rw [heq, List.mem_singleton.mp hb] at ha
    exact hout ha
  · rcases List.mem_append.mp ho' with hmem | hmem
    · exact howns.small o' hmem
    · rw [List.mem_singleton.mp hmem]
      exact hsmall
  · obtain ⟨hold, hne⟩ := hcases k o' hk
    obtain ⟨hapart, hsmall'⟩ := howns.apart k o' hold
    refine ⟨fun hmem => ?_, hsmall'⟩
    rcases List.mem_append.mp hmem with hmem | hmem
    · exact hapart hmem
    · exact hne (List.mem_singleton.mp hmem)
  · exact howns.once k k' o' (hcases k o' hk).1 (hcases k' o' hk').1

end Ownership

section Trees

variable {n o h k : ℕ} {s s' : JsonHeap δ} {avail : List ℕ}

theorem tree_of_some (hh : s.handles h = some o) :
    s.tree h = .value (s.object o).value (s.object o).isStringFormat := by
  rw [tree, hh]

theorem tree_of_none (hh : s.handles h = none) : s.tree h = .null := by
  rw [tree, hh]

theorem tree_congr (hhandle : s'.handles h = s.handles h)
    (hobject : ∀ o, s.handles h = some o → s'.object o = s.object o) : s'.tree h = s.tree h := by
  cases hh : s.handles h with
  | none => rw [tree_of_none hh, tree_of_none (hhandle.trans hh)]
  | some o => rw [tree_of_some hh, tree_of_some (hhandle.trans hh), hobject o hh]

/-- A state in which one handle has changed. -/
theorem tree_eq_update {x : Json δ} (hself : s'.tree h = x)
    (hother : ∀ k, k ≠ h → s'.handles k = s.handles k ∧
      ∀ o, s.handles k = some o → s'.object o = s.object o) :
    s'.tree = Function.update s.tree h x := by
  funext k
  by_cases hkh : k = h
  · rw [hkh, Function.update_self, hself]
  · rw [Function.update_of_ne hkh]
    exact tree_congr (hother k hkh).1 (hother k hkh).2

theorem object_write_self (s : JsonHeap δ) (o : ℕ) (x : PooledValue δ) :
    (s.write o x).object o = x := Function.update_self ..

theorem object_write_of_ne (hne : k ≠ o) (x : PooledValue δ) :
    (s.write o x).object k = s.object k := Function.update_of_ne hne ..

/-- A handle writes to the object it refers to. -/
theorem Owns.tree_write (howns : Owns n s avail) (hh : s.handles h = some o) (x : PooledValue δ) :
    (s.write o x).tree = Function.update s.tree h (.value x.value x.isStringFormat) := by
  refine tree_eq_update ?_ fun k hkh => ⟨rfl, fun o' hk => ?_⟩
  · have hself : (s.write o x).handles h = some o := hh
    rw [tree_of_some hself, object_write_self]
  · refine object_write_of_ne (fun heq => hkh ?_) x
    rw [heq] at hk
    exact howns.once k h o hk hh

theorem Owns.tree_give (howns : Owns n s avail) (hh : s.handles h = some o) :
    ((s.release n o).refer h none).tree = Function.update s.tree h .null := by
  refine tree_eq_update ?_ fun k hkh => ⟨Function.update_of_ne hkh .., fun o' hk => ?_⟩
  · exact tree_of_none (Function.update_self ..)
  · have hne : o' ≠ o := by
      intro heq
      rw [heq] at hk
      exact hkh (howns.once k h o hk hh)
    have hrelease : (s.release n o).object o' =
        (s.write o { s.object o with value := .null }).object o' := Function.update_of_ne hne ..
    exact hrelease.trans (object_write_of_ne hne _)

theorem Owns.tree_take (howns : Owns n s avail) (hok : s.acquire n = .ok (o, s'))
    (h : ℕ) : (s'.refer h (some o)).tree =
      Function.update s.tree h (.value (s.object o).value (s.object o).isStringFormat) := by
  obtain ⟨_, hhandles, hobject, _⟩ := howns.acquire hok
  have hsame : (s'.refer h (some o)).object = s.object := hobject
  refine tree_eq_update ?_ fun k hkh => ⟨?_, fun o' _ => by rw [hsame]⟩
  · have hself : (s'.refer h (some o)).handles h = some o := Function.update_self ..
    rw [tree_of_some hself, hsame]
  · change Function.update s'.handles h (some o) k = s.handles k
    rw [Function.update_of_ne hkh, hhandles]

end Trees

section Steps

variable {n h : ℕ} {s s' : JsonHeap δ} {avail : List ℕ}

theorem Owns.assign (howns : Owns n s avail) {value : JsonValue δ}
    (hok : s.assign n h value = .ok s') : (∃ rest, Owns n s' rest) ∧
      s'.tree = Function.update s.tree h (assignTree s.headFlag value (s.tree h)) := by
  unfold JsonHeap.assign checkCreateJsonValue at hok
  cases hh : s.handles h with
  | some o =>
    simp only [hh, pure_bind] at hok
    cases hok
    refine ⟨⟨avail, howns.write o _⟩, ?_⟩
    rw [howns.tree_write hh, tree_of_some hh, assignTree]
  | none =>
    simp only [hh] at hok
    cases hacquire : s.acquire n with
    | error e =>
      rw [hacquire] at hok
      cases hok
    | ok r =>
      obtain ⟨o, s₁⟩ := r
      rw [hacquire] at hok
      cases hok
      obtain ⟨rest, howns₁⟩ := howns.take hacquire hh
      have hself : (s₁.refer h (some o)).handles h = some o := Function.update_self ..
      obtain ⟨hitem, _, hobject, _⟩ := howns.acquire hacquire
      have hflag : ((s₁.refer h (some o)).object o).isStringFormat = s.headFlag := by
        rw [headFlag, ← hitem]
        exact congrArg PooledValue.isStringFormat (congrFun hobject o)
      refine ⟨⟨rest, howns₁.write o _⟩, ?_⟩
      rw [howns₁.tree_write hself, howns.tree_take hacquire, Function.update_idem, hflag,
        tree_of_none hh, assignTree]
      intro value isStringFormat heq
      cases heq

theorem Owns.setIsStringFormat (howns : Owns n s avail) (h : ℕ) (val : Bool) :
    (∃ rest, Owns n (s.setIsStringFormat h val) rest) ∧
      (s.setIsStringFormat h val).tree = Function.update s.tree h (formatTree val (s.tree h)) := by
  unfold JsonHeap.setIsStringFormat
  cases hh : s.handles h with
  | some o =>
    refine ⟨⟨avail, howns.write o _⟩, ?_⟩
    simp only
    rw [howns.tree_write hh, tree_of_some hh, formatTree]
  | none =>
    refine ⟨⟨avail, howns⟩, ?_⟩
    simp only
    rw [tree_of_none hh, formatTree, ← tree_of_none hh, Function.update_eq_self]
    intro value isStringFormat heq
    cases heq

theorem Owns.destroy (howns : Owns n s avail) (h : ℕ) :
    (∃ rest, Owns n (s.destroy n h) rest) ∧
      (s.destroy n h).tree = Function.update s.tree h .null := by
  unfold JsonHeap.destroy
  cases hh : s.handles h with
  | some o => exact ⟨⟨avail ++ [o], howns.give hh⟩, howns.tree_give hh⟩
  | none =>
    refine ⟨⟨avail, howns⟩, ?_⟩
    simp only
    rw [← tree_of_none hh, Function.update_eq_self]

theorem Owns.referToCopy {source target : ℕ} (howns : Owns n (s.refer target none) avail)
    (hne : source ≠ target) (hok : s.referToCopy n source target = .ok s') :
    (∃ rest, Owns n s' rest) ∧ s'.tree = Function.update (s.refer target none).tree target
      ((s.refer target none).tree source) := by
  have hsource : (s.refer target none).handles source = s.handles source :=
    Function.update_of_ne hne ..
  have htarget : (s.refer target none).handles target = none := Function.update_self ..
  unfold JsonHeap.referToCopy JsonHeap.getCopy at hok
  cases hh : s.handles source with
  | none =>
    simp only [hh] at hok
    cases hok
    refine ⟨⟨avail, howns⟩, ?_⟩
    rw [tree_of_none (hsource.trans hh), ← tree_of_none htarget, Function.update_eq_self]
  | some o =>
    simp only [hh] at hok
    cases hacquire : s.acquire n with
    | error e =>
      rw [hacquire] at hok
      cases hok
    | ok r =>
      obtain ⟨o', s₁⟩ := r
      rw [hacquire] at hok
      cases hok
      -- The copy could as well be taken once the target refers to nothing.
      have hemptied : (s.refer target none).acquire n = .ok (o', s₁.refer target none) := by
        unfold JsonHeap.acquire at hacquire ⊢
        change (s.pool.acquire n >>= _) = _
        cases hpool : s.pool.acquire n with
        | error e =>
          rw [hpool] at hacquire
          cases hacquire
        | ok r =>
          rw [hpool] at hacquire
          cases hacquire
          rfl
      obtain ⟨_, _, hobject, _⟩ := howns.acquire hemptied
      obtain ⟨rest, howns₁⟩ := howns.take hemptied htarget
      have htree := howns.tree_take hemptied target
      have hagain : (s₁.refer target none).refer target (some o') = s₁.refer target (some o') := by
        unfold refer
        rw [Function.update_idem]
      rw [hagain] at howns₁ htree
      have hself : (s₁.refer target (some o')).handles target = some o' :=
        Function.update_self ..
      refine ⟨⟨rest, howns₁.write o' _⟩, ?_⟩
      refine (howns₁.tree_write hself ⟨(s₁.object o).value, (s₁.object o).isStringFormat⟩).trans ?_
      rw [htree, Function.update_idem, tree_of_some (hsource.trans hh)]
      have hcopied : s₁.object o = (s.refer target none).object o := congrFun hobject o
      rw [hcopied]

theorem Owns.copy {source target : ℕ} (howns : Owns n s avail)
    (hok : s.copy n source target = .ok s') : (∃ rest, Owns n s' rest) ∧
      s'.tree = Function.update s.tree target (s.tree source) := by
  unfold JsonHeap.copy at hok
  by_cases hsame : source = target
  · rw [if_pos hsame] at hok
    cases hok
    exact ⟨⟨avail, howns⟩, by rw [hsame, Function.update_eq_self]⟩
  · rw [if_neg hsame] at hok
    cases hh : s.handles target with
    | some o =>
      simp only [hh] at hok
      obtain ⟨howns', htree⟩ := (howns.give hh).referToCopy hsame hok
      rw [howns.tree_give hh, Function.update_idem, Function.update_of_ne hsame] at htree
      exact ⟨howns', htree⟩
    | none =>
      simp only [hh] at hok
      have hstill : s.refer target none = s := by
        unfold refer
        rw [← hh, Function.update_eq_self]
      have hemptied := howns
      rw [← hstill] at hemptied
      have hcopied := hemptied.referToCopy hsame hok
      rw [hstill] at hcopied
      exact hcopied

/-- What a step does to the trees. -/
theorem Owns.step (howns : Owns n s avail) {op : Op δ} (hok : s.step n op = .ok s') :
    (∃ rest, Owns n s' rest) ∧ (s.TakesFormatted op → s'.tree = applyOp s.tree op) := by
  cases op with
  | assign h value =>
    obtain ⟨howns', htree⟩ := howns.assign hok
    refine ⟨howns', fun hformatted => ?_⟩
    rw [htree, applyOp]
    cases hh : s.handles h with
    | some o => rw [tree_of_some hh, assignTree, assignTree]
    | none => rw [hformatted hh]
  | setIsStringFormat h val =>
    cases hok
    obtain ⟨howns', htree⟩ := howns.setIsStringFormat h val
    exact ⟨howns', fun _ => htree⟩
  | copy source target =>
    obtain ⟨howns', htree⟩ := howns.copy hok
    exact ⟨howns', fun _ => htree⟩
  | destroy h =>
    cases hok
    obtain ⟨howns', htree⟩ := howns.destroy h
    exact ⟨howns', fun _ => htree⟩

end Steps

section Runs

variable {n : ℕ} {s s' : JsonHeap δ} {avail : List ℕ}

theorem Owns.run {ops : List (Op δ)} (howns : Owns n s avail)
    (hrun : Runs.run (JsonHeap.step n) s ops = .ok s') : ∃ rest, Owns n s' rest := by
  have hstep : ∀ (s : JsonHeap δ) op s', (∃ avail, Owns n s avail) → s.step n op = .ok s' →
      ∃ rest, Owns n s' rest := by
    intro s op s' h hok
    obtain ⟨avail, howns⟩ := h
    exact (howns.step hok).1
  exact Runs.run_invariant hstep ⟨avail, howns⟩ hrun

/-- A run whose assignments take formatted objects has the trees it would have without a pool. -/
theorem Owns.tree_run {ops : List (Op δ)} (howns : Owns n s avail)
    (hrun : Runs.run (JsonHeap.step n) s ops = .ok s')
    (hformatted : Runs.Along (JsonHeap.step n) TakesFormatted s ops) :
    s'.tree = ops.foldl applyOp s.tree := by
  induction ops generalizing s avail with
  | nil =>
    cases hrun
    rfl
  | cons op ops ih =>
    obtain ⟨s₁, hok, hrest⟩ := Runs.run_cons_ok hrun
    obtain ⟨⟨rest, howns₁⟩, htree⟩ := howns.step hok
    rw [List.foldl_cons, ← htree hformatted.1]
    exact ih howns₁ hrest (hformatted.2 s₁ hok)

/-- A string on a new handle has its quotes if the object taken for it has its flag set. -/
theorem Owns.quoted_iff [CharConv δ] (howns : Owns n s avail) {h : ℕ} (hnone : s.handles h = none)
    {string : Text} (hok : s.assign n h (.string string) = .ok s') :
    s'.text h = ['"'] ++ string ++ ['"'] ↔ s.headFlag = true := by
  have htree := (howns.assign hok).2
  rw [tree_of_none hnone, assignTree] at htree
  · have htext : s'.text h = (Json.value (.string string) s.headFlag : Json δ).getStringValue := by
      rw [text, htree, Function.update_self]
    rw [htext]
    cases s.headFlag with
    | true => simp [Json.getStringValue, Json.writeStringValue, JsonValue.writeStringValue]
    | false =>
      refine ⟨fun heq => ?_, fun hflag => by cases hflag⟩
      have hlength := congrArg List.length heq
      simp [Json.getStringValue, Json.writeStringValue, JsonValue.writeStringValue] at hlength
      omega
  · intro value isStringFormat heq
    cases heq

/-- The texts of new handles do not depend on what was done before, as long as every
assignment to a handle that refers to nothing takes an object with its flag set. For a
string this is also necessary. -/
theorem texts_independent [CharConv δ] (n : ℕ) (history history' program : List (Op δ))
    {s s' t t' : JsonHeap δ} (hs : Runs.run (step n) (new n) history = .ok s)
    (hs' : Runs.run (step n) (new n) history' = .ok s')
    (hnew : ∀ op ∈ program, ∀ h ∈ op.names, s.handles h = none ∧ s'.handles h = none)
    (ht : Runs.run (step n) s program = .ok t) (ht' : Runs.run (step n) s' program = .ok t') :
    (Runs.Along (step n) TakesFormatted s program → Runs.Along (step n) TakesFormatted s' program →
        ∀ op ∈ program, ∀ h ∈ op.names, t.text h = t'.text h) ∧
      ∀ h string u, s.handles h = none → s.assign n h (.string string) = .ok u →
        (u.text h = ['"'] ++ string ++ ['"'] ↔ s.headFlag = true) := by
  obtain ⟨avail, howns⟩ := (owns_new n).run hs
  obtain ⟨avail', howns'⟩ := (owns_new n).run hs'
  refine ⟨fun hformatted hformatted' op hop h hh => ?_,
    fun h string u hnone hok => howns.quoted_iff hnone hok⟩
  have hsame : program.foldl applyOp s.tree h = program.foldl applyOp s'.tree h := by
    refine foldl_applyOp_congr (fun k => ∃ op ∈ program, k ∈ op.names)
      (fun op hop k hk => ⟨op, hop, hk⟩) (fun k hk => ?_) h ⟨op, hop, hh⟩
    obtain ⟨op', hop', hk⟩ := hk
    obtain ⟨hnone, hnone'⟩ := hnew op' hop' k hk
    rw [tree_of_none hnone, tree_of_none hnone']
  rw [text, text, howns.tree_run ht hformatted, howns'.tree_run ht' hformatted', hsame]

/-- An object comes back as it was, and is taken for a string. -/
theorem texts_independent_reused : ∃ t t' : JsonHeap Empty,
    Runs.run (step 1) (new 1) [.assign 0 (.string ['a'])] = .ok t ∧
    Runs.run (step 1) (new 1) [.assign 1 (.int64 5), .destroy 1, .assign 0 (.string ['a'])] =
      .ok t' ∧
    t.text 0 = t'.text 0 := by
  refine ⟨_, _, rfl, rfl, (texts_independent 1 []
    [.assign 1 (.int64 5), .destroy 1] [.assign 0 (.string ['a'])] rfl rfl
    (fun op hop h hh => ?_) rfl rfl).1
    ⟨fun _ => rfl, fun _ _ => trivial⟩ ⟨fun _ => rfl, fun _ _ => trivial⟩ _
    (List.mem_singleton_self _) 0 (List.mem_singleton_self 0)⟩
  rw [List.mem_singleton.mp hop] at hh
  rw [List.mem_singleton.mp hh]
  exact ⟨rfl, rfl⟩

/-- An object comes back with its flag cleared, and is taken for a string. -/
theorem not_texts_independent : ∃ t t' : JsonHeap Empty,
    Runs.run (step 1) (new 1) [.assign 0 (.string ['a'])] = .ok t ∧
    Runs.run (step 1) (new 1) [.assign 1 (.int64 5), .setIsStringFormat 1 false, .destroy 1,
      .assign 0 (.string ['a'])] = .ok t' ∧
    t.text 0 = ['"', 'a', '"'] ∧ t'.text 0 = ['a'] := ⟨_, _, rfl, rfl, rfl, rfl⟩

end Runs

end JsonHeap

end OrderBookServer
