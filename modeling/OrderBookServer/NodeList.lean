import Mathlib.Algebra.BigOperators.Group.List.Basic
import Mathlib.Data.List.Nodup
import Mathlib.Tactic.Abel

/-!
Linked lists whose nodes keep their address while other nodes come and go.
An iterator is the address of a node, so it stays valid under insertion,
under the erasure of other nodes and under splicing inside the list. All
operations but `pushBack` are meant for the address of a present node.
-/
namespace OrderBookServer.NodeList

variable {α β : Type}

structure Node (α : Type) where
  addr : ℕ
  val : α
deriving DecidableEq, Repr

abbrev Nodes (α : Type) := List (Node α)

namespace Nodes

def addrs (l : Nodes α) : List ℕ := l.map Node.addr

def vals (l : Nodes α) : List α := l.map Node.val

def pushBack (l : Nodes α) (a : ℕ) (x : α) : Nodes α := l ++ [⟨a, x⟩]

def read (l : Nodes α) (a : ℕ) : Option α := (l.find? (fun n => n.addr = a)).map Node.val

def erase (l : Nodes α) (a : ℕ) : Nodes α := l.filter (fun n => n.addr ≠ a)

def write (l : Nodes α) (a : ℕ) (x : α) : Nodes α :=
  l.map (fun n => if n.addr = a then ⟨a, x⟩ else n)

/-- Splice the node at `a` to the end of its own list. -/
def spliceBack (l : Nodes α) (a : ℕ) : Nodes α :=
  l.filter (fun n => n.addr ≠ a) ++ l.filter (fun n => n.addr = a)

theorem mem_addrs {l : Nodes α} {a : ℕ} : a ∈ l.addrs ↔ ∃ x, (⟨a, x⟩ : Node α) ∈ l := by
  constructor
  · intro h
    obtain ⟨n, hn, rfl⟩ := List.mem_map.mp h
    exact ⟨n.val, hn⟩
  · rintro ⟨x, hx⟩
    exact List.mem_map.mpr ⟨_, hx, rfl⟩

theorem mem_vals {l : Nodes α} {x : α} : x ∈ l.vals ↔ ∃ a, (⟨a, x⟩ : Node α) ∈ l := by
  constructor
  · intro h
    obtain ⟨n, hn, rfl⟩ := List.mem_map.mp h
    exact ⟨n.addr, hn⟩
  · rintro ⟨a, ha⟩
    exact List.mem_map.mpr ⟨_, ha, rfl⟩

theorem mem_erase {l : Nodes α} {a : ℕ} {n : Node α} : n ∈ l.erase a ↔ n ∈ l ∧ n.addr ≠ a := by
  simp [erase]

theorem mem_pushBack {l : Nodes α} {a : ℕ} {x : α} {n : Node α} :
    n ∈ l.pushBack a x ↔ n ∈ l ∨ n = ⟨a, x⟩ := by
  simp [pushBack]

theorem spliceBack_perm (l : Nodes α) (a : ℕ) : (l.spliceBack a).Perm l := by
  have h := List.filter_append_perm (fun n : Node α => decide (n.addr ≠ a)) l
  simpa only [spliceBack, ne_eq, decide_not, Bool.not_not] using h

theorem mem_spliceBack {l : Nodes α} {a : ℕ} {n : Node α} : n ∈ l.spliceBack a ↔ n ∈ l :=
  (spliceBack_perm l a).mem_iff

/-- Two nodes of one list with the same address are the same node. -/
theorem node_unique {l : Nodes α} (hl : l.addrs.Nodup) {a : ℕ} {x y : α}
    (hx : (⟨a, x⟩ : Node α) ∈ l) (hy : (⟨a, y⟩ : Node α) ∈ l) : x = y := by
  have h := List.inj_on_of_nodup_map hl hx hy rfl
  cases h
  rfl

theorem read_eq_some_iff {l : Nodes α} (hl : l.addrs.Nodup) {a : ℕ} {x : α} :
    l.read a = some x ↔ (⟨a, x⟩ : Node α) ∈ l := by
  constructor
  · intro h
    obtain ⟨n, hn, rfl⟩ := Option.map_eq_some_iff.mp h
    have haddr : n.addr = a :=
      of_decide_eq_true (List.find?_some (p := fun n : Node α => n.addr = a) hn)
    subst haddr
    exact List.mem_of_find?_eq_some hn
  · intro hx
    cases hfind : l.find? (fun n => n.addr = a) with
    | none =>
      have hnone := List.find?_eq_none.mp hfind _ hx
      simp at hnone
    | some n =>
      have haddr : n.addr = a :=
        of_decide_eq_true (List.find?_some (p := fun n : Node α => n.addr = a) hfind)
      subst haddr
      have hval := node_unique hl (List.mem_of_find?_eq_some hfind) hx
      simp [read, hfind, hval]

theorem mem_write {l : Nodes α} {a : ℕ} {x y : α} {n : Node α}
    (hx : (⟨a, x⟩ : Node α) ∈ l) :
    n ∈ l.write a y ↔ (n ∈ l ∧ n.addr ≠ a) ∨ n = ⟨a, y⟩ := by
  simp only [write, List.mem_map]
  constructor
  · rintro ⟨m, hm, rfl⟩
    by_cases hma : m.addr = a
    · exact Or.inr (by simp [hma])
    · exact Or.inl (by simpa [hma] using hm)
  · rintro (⟨hn, hna⟩ | rfl)
    · exact ⟨n, hn, by simp [hna]⟩
    · exact ⟨_, hx, by simp⟩

@[simp] theorem addrs_write (l : Nodes α) (a : ℕ) (x : α) : (l.write a x).addrs = l.addrs := by
  simp only [addrs, write, List.map_map]
  apply List.map_congr_left
  intro n _
  by_cases h : n.addr = a <;> simp [h]

theorem mem_addrs_of_mem_write {l : Nodes α} {a : ℕ} {x : α} {n : Node α}
    (hn : n ∈ l.write a x) : n.addr ∈ l.addrs := by
  have hmem : n.addr ∈ (l.write a x).addrs := List.mem_map_of_mem hn
  rwa [addrs_write] at hmem

theorem addrs_erase_nodup {l : Nodes α} (hl : l.addrs.Nodup) (a : ℕ) :
    (l.erase a).addrs.Nodup :=
  hl.sublist (List.filter_sublist.map _)

theorem addrs_spliceBack_nodup {l : Nodes α} (hl : l.addrs.Nodup) (a : ℕ) :
    (l.spliceBack a).addrs.Nodup :=
  ((spliceBack_perm l a).map _).nodup_iff.mpr hl

theorem addrs_pushBack_nodup {l : Nodes α} (hl : l.addrs.Nodup) {a : ℕ} (ha : a ∉ l.addrs)
    (x : α) : (l.pushBack a x).addrs.Nodup := by
  simp only [addrs, pushBack, List.map_append, List.map_cons, List.map_nil]
  refine List.nodup_append.mpr ⟨hl, by simp, ?_⟩
  rintro b hb c hc rfl
  simp only [List.mem_singleton] at hc
  exact ha (hc ▸ hb)

/-- The node at an address is the only one there. -/
theorem filter_addr_eq {l : Nodes α} (hl : l.addrs.Nodup) {a : ℕ} {x : α}
    (hx : (⟨a, x⟩ : Node α) ∈ l) : l.filter (fun n => n.addr = a) = [⟨a, x⟩] := by
  have hmem : (⟨a, x⟩ : Node α) ∈ l.filter (fun n => n.addr = a) := by simp [hx]
  have hnodup : (l.filter (fun n => n.addr = a)).Nodup := (hl.of_map _).filter _
  have hall : ∀ n ∈ l.filter (fun n => n.addr = a), n = ⟨a, x⟩ := by
    rintro ⟨b, y⟩ hy
    simp only [List.mem_filter, decide_eq_true_eq] at hy
    obtain ⟨hy, rfl⟩ := hy
    rw [node_unique hl hy hx]
  have hrep := List.eq_replicate_of_mem hall
  have hpos := List.length_pos_of_mem hmem
  rw [hrep] at hnodup
  have hle := List.nodup_replicate.mp hnodup
  rw [hrep, show (l.filter (fun n => n.addr = a)).length = 1 by omega]
  rfl

theorem erase_write (l : Nodes α) (a : ℕ) (x : α) : (l.write a x).erase a = l.erase a := by
  induction l with
  | nil => rfl
  | cons n l ih =>
    by_cases h : n.addr = a
    · simpa [write, erase, h] using ih
    · simpa [write, erase, h] using ih

/-- Writing a node and splicing it back puts the new value last. -/
theorem spliceBack_write {l : Nodes α} (hl : l.addrs.Nodup) {a : ℕ} {x : α}
    (hx : (⟨a, x⟩ : Node α) ∈ l) (y : α) :
    (l.write a y).spliceBack a = l.erase a ++ [⟨a, y⟩] := by
  have hy : (⟨a, y⟩ : Node α) ∈ l.write a y := (mem_write hx).mpr (Or.inr rfl)
  rw [spliceBack, filter_addr_eq (by simpa using hl) hy]
  exact congrArg (· ++ [(⟨a, y⟩ : Node α)]) (erase_write l a y)

section Revisions

/-- The node at `a` gets the value `x`; without a value it goes. -/
def revise (l : Nodes α) (a : ℕ) (x : Option α) : Nodes α :=
  l.filterMap fun n => if n.addr = a then x.map (Node.mk a) else some n

variable {l : Nodes α} {a a' : ℕ} {x x' : Option α} {n n' : Node α}

theorem revise_none (l : Nodes α) (a : ℕ) : l.revise a none = l.erase a := by
  induction l with
  | nil => rfl
  | cons n l ih =>
    by_cases h : n.addr = a
    · simpa [revise, erase, h] using ih
    · simpa [revise, erase, h] using ih

theorem revise_some (l : Nodes α) (a : ℕ) (y : α) : l.revise a (some y) = l.write a y := by
  rw [write, ← List.filterMap_eq_map, revise]
  apply List.filterMap_congr
  intro n _
  by_cases h : n.addr = a <;> simp [h]

theorem revise_append (l l' : Nodes α) (a : ℕ) (x : Option α) :
    revise (l ++ l') a x = l.revise a x ++ l'.revise a x := List.filterMap_append

theorem revise_of_notMem (ha : a ∉ l.addrs) : l.revise a x = l := by
  have hsome : ∀ n ∈ l, (if n.addr = a then x.map (Node.mk a) else some n) = some n := by
    intro n hn
    apply if_neg
    rintro rfl
    exact ha (List.mem_map_of_mem hn)
  rw [revise, List.filterMap_congr hsome, List.filterMap_some]

/-- Revisions at different addresses do not see each other. -/
theorem revise_comm (l : Nodes α) (hne : a ≠ a') :
    (l.revise a x).revise a' x' = (l.revise a' x').revise a x := by
  rw [revise, revise, List.filterMap_filterMap, revise, revise, List.filterMap_filterMap]
  apply List.filterMap_congr
  intro n _
  by_cases h : n.addr = a
  · cases x <;> simp [h, hne]
  · by_cases h' : n.addr = a'
    · cases x' <;> simp [h', Ne.symm hne]
    · simp [h, h']

theorem mem_revise_of_ne (hn : n ∈ l) (hne : n.addr ≠ a) : n ∈ l.revise a x :=
  List.mem_filterMap.mpr ⟨n, hn, if_neg hne⟩

/-- Two nodes that are not revised keep their order. -/
theorem pair_sublist_revise (hl : [n, n'].Sublist l) (hne : n.addr ≠ a) (hne' : n'.addr ≠ a) :
    [n, n'].Sublist (l.revise a x) := by
  have hpair := hl.filterMap fun n => if n.addr = a then x.map (Node.mk a) else some n
  simpa [revise, hne, hne'] using hpair

theorem addrs_revise_sublist (l : Nodes α) (a : ℕ) (x : Option α) :
    (l.revise a x).addrs.Sublist l.addrs := by
  cases x with
  | none =>
    rw [revise_none]
    exact List.filter_sublist.map _
  | some y => rw [revise_some, addrs_write]

end Revisions

section Renaming

variable {f : ℕ → ℕ} {l : Nodes α} {a : ℕ}

/-- The same values at other addresses. -/
def rename (f : ℕ → ℕ) (l : Nodes α) : Nodes α := l.map fun n => ⟨f n.addr, n.val⟩

@[simp] theorem vals_rename (f : ℕ → ℕ) (l : Nodes α) : (l.rename f).vals = l.vals := by
  simp [vals, rename]

theorem addrs_rename (f : ℕ → ℕ) (l : Nodes α) : (l.rename f).addrs = l.addrs.map f := by
  simp [addrs, rename]

theorem rename_append (f : ℕ → ℕ) (l l' : Nodes α) :
    rename f (l ++ l') = l.rename f ++ l'.rename f := List.map_append

theorem rename_of_fixed (hf : ∀ a ∈ l.addrs, f a = a) : l.rename f = l := by
  have hsame : ∀ n ∈ l, (⟨f n.addr, n.val⟩ : Node α) = n := by
    intro n hn
    rw [hf n.addr (List.mem_map_of_mem hn)]
  rw [rename, List.map_congr_left hsame, List.map_id']

/-- An injective renaming keeps the positions of the nodes. -/
theorem idxOf_addrs_rename (hf : Function.Injective f) (l : Nodes α) (a : ℕ) :
    (l.rename f).addrs.idxOf (f a) = l.addrs.idxOf a := by
  rw [addrs_rename]
  induction l.addrs with
  | nil => rfl
  | cons b bs ih =>
    by_cases h : b = a
    · simp [h]
    · rw [List.map_cons, List.idxOf_cons_ne _ (fun heq => h (hf heq)), List.idxOf_cons_ne _ h, ih]

end Renaming

section Sums

variable {M : Type} [AddCommMonoid M]

/-- The total of `f` over the values of a list. -/
def total (f : α → M) (l : Nodes α) : M := (l.map (fun n => f n.val)).sum

theorem total_pushBack (f : α → M) (l : Nodes α) (a : ℕ) (x : α) :
    total f (l.pushBack a x) = total f l + f x := by
  simp [total, pushBack]

theorem total_spliceBack (f : α → M) (l : Nodes α) (a : ℕ) :
    total f (l.spliceBack a) = total f l :=
  ((spliceBack_perm l a).map _).sum_eq

/-- A list is, up to order, the node at an address and what erasing it leaves. -/
theorem perm_cons_erase {l : Nodes α} (hl : l.addrs.Nodup) {a : ℕ} {x : α}
    (hx : (⟨a, x⟩ : Node α) ∈ l) : (⟨a, x⟩ :: l.erase a).Perm l := by
  have hsplice := spliceBack_perm l a
  rw [spliceBack, filter_addr_eq hl hx] at hsplice
  have hcomm : ([(⟨a, x⟩ : Node α)] ++ l.erase a).Perm (l.erase a ++ [⟨a, x⟩]) :=
    List.perm_append_comm
  exact hcomm.trans hsplice

theorem total_erase (f : α → M) {l : Nodes α} (hl : l.addrs.Nodup) {a : ℕ} {x : α}
    (hx : (⟨a, x⟩ : Node α) ∈ l) : f x + total f (l.erase a) = total f l := by
  have h := ((perm_cons_erase hl hx).map (fun n => f n.val)).sum_eq
  simpa only [total, List.map_cons, List.sum_cons] using h

theorem total_write (f : α → M) {l : Nodes α} (hl : l.addrs.Nodup) {a : ℕ} {x : α}
    (hx : (⟨a, x⟩ : Node α) ∈ l) (y : α) :
    f x + total f (l.write a y) = total f l + f y := by
  have hy : (⟨a, y⟩ : Node α) ∈ l.write a y := (mem_write hx).mpr (Or.inr rfl)
  have hw := total_erase f (l := l.write a y) (by simpa using hl) hy
  rw [erase_write] at hw
  rw [← hw, ← total_erase f hl hx]
  abel

end Sums

end Nodes

end OrderBookServer.NodeList
