import Mathlib.Data.Fintype.Card
import Mathlib.Data.Set.Finite.Basic
import Mathlib.Logic.Relation

/-!
Graphs without cycles, as relations between nodes. Edges that close no path of the graph leave it
without cycles, and where finitely many nodes have edges into them one can argue from the
successors of a node to the node.
-/
namespace OrderBookServer

open Relation

variable {α : Type} {r r' : α → α → Prop} {t : α → Prop} {a b p : α}

/-- No path of the graph comes back to where it starts. -/
def Acyclic (r : α → α → Prop) : Prop := ∀ a, ¬ TransGen r a a

namespace Acyclic

theorem mono (h : Acyclic r) (hsub : ∀ a b, r' a b → r a b) : Acyclic r' :=
  fun a hcycle => h a (TransGen.mono hsub a a hcycle)

theorem swap (h : Acyclic r) : Acyclic (Function.swap r) :=
  fun a hcycle => h a (transGen_swap.mp hcycle)

/-- A path of a graph with more edges out of `p` is one without them or leads over one of them. -/
theorem transGen_add (hadd : ∀ a b, r' a b → r a b ∨ a = p ∧ t b) (h : TransGen r' a b) :
    TransGen r a b ∨ ReflTransGen r a p ∧ ∃ q, t q ∧ ReflTransGen r q b := by
  induction h with
  | single hedge =>
    rcases hadd _ _ hedge with hold | ⟨rfl, hnew⟩
    · exact Or.inl (TransGen.single hold)
    · exact Or.inr ⟨ReflTransGen.refl, _, hnew, ReflTransGen.refl⟩
  | tail _ hedge ih =>
    rcases hadd _ _ hedge with hold | ⟨rfl, hnew⟩
    · rcases ih with hpath | ⟨hto, q, hq, hfrom⟩
      · exact Or.inl (hpath.tail hold)
      · exact Or.inr ⟨hto, q, hq, hfrom.tail hold⟩
    · rcases ih with hpath | ⟨hto, -⟩
      · exact Or.inr ⟨hpath.to_reflTransGen, _, hnew, ReflTransGen.refl⟩
      · exact Or.inr ⟨hto, _, hnew, ReflTransGen.refl⟩

theorem reflTransGen_add (hadd : ∀ a b, r' a b → r a b ∨ a = p ∧ t b)
    (h : ReflTransGen r' a b) :
    ReflTransGen r a b ∨ ReflTransGen r a p ∧ ∃ q, t q ∧ ReflTransGen r q b := by
  rcases reflTransGen_iff_eq_or_transGen.mp h with rfl | hpath
  · exact Or.inl ReflTransGen.refl
  · exact (transGen_add hadd hpath).imp_left TransGen.to_reflTransGen

/-- Edges out of `p` close no cycle where they lead to nodes from which `p` is not reached. -/
theorem add (h : Acyclic r) (hadd : ∀ a b, r' a b → r a b ∨ a = p ∧ t b)
    (hopen : ∀ q, t q → ¬ ReflTransGen r q p) : Acyclic r' := by
  intro a hcycle
  rcases transGen_add hadd hcycle with hold | ⟨hto, q, hq, hfrom⟩
  · exact h a hold
  · exact hopen q hq (hfrom.trans hto)

/-- What holds of a node if it holds of its successors holds of all. -/
theorem induction {l : List α} (h : Acyclic r) (hnodes : ∀ a b, r a b → b ∈ l)
    {P : α → Prop} (hstep : ∀ a, (∀ b, r a b → P b) → P a) (a : α) : P a := by
  let edge : {a // a ∈ l} → {a // a ∈ l} → Prop := fun b a => TransGen r a b
  have htrans : IsTrans _ edge := ⟨fun _ _ _ hab hbc => hbc.trans hab⟩
  have hirrefl : Std.Irrefl edge := ⟨fun a => h a⟩
  have hfinite : Finite {a // a ∈ l} := List.finite_toSet l
  have hwf : WellFounded edge := Finite.wellFounded_of_trans_of_irrefl edge
  have hnode : ∀ b : {a // a ∈ l}, P b := fun b =>
    hwf.induction b fun b ih => hstep b fun c hc => ih ⟨c, hnodes b c hc⟩ (TransGen.single hc)
  exact hstep a fun b hb => hnode ⟨b, hnodes a b hb⟩

end Acyclic

end OrderBookServer
