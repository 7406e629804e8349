import OrderBookServer.Invariant

/-!
What a message does to a book, said once for all messages: it is idle, clears
the book, places an order, or changes the order its id names. The effect is
read off the message, the lookup table and the size of the named order.
Module Execution shows that `apply` performs exactly this effect.
-/
namespace OrderBookServer

open NodeList

inductive Effect
  | idle
  | clear
  | place
  | remove (ref : Ref)
  | resize (ref : Ref) (size : UInt32)
  | requeue (ref : Ref) (size : UInt32)
  | replace (ref : Ref)
deriving DecidableEq, Repr

namespace Effect

/-- The effect puts a new node at the back of the message's own queue. -/
def places : Effect → Bool
  | .place => true
  | .replace _ => true
  | _ => false

/-- The entry of the order that the effect changes. -/
def ref : Effect → Option Ref
  | .remove ref => some ref
  | .resize ref _ => some ref
  | .requeue ref _ => some ref
  | .replace ref => some ref
  | _ => none

/-- The size that the effect gives to the order of the message. -/
def size (mbo : MboMsg) : Effect → Option UInt32
  | .place => some mbo.size
  | .resize _ size => some size
  | .requeue _ size => some size
  | .replace _ => some mbo.size
  | _ => none

end Effect

namespace MboMsg

def isBid (mbo : MboMsg) : Bool := decide (mbo.side = 'B')

/-- The message is neither a reset nor one of those the book skips for their side. -/
def Sided (mbo : MboMsg) : Prop := mbo.action ≠ 'R' ∧ (mbo.side = 'A' ∨ mbo.side = 'B')

instance (mbo : MboMsg) : Decidable mbo.Sided := by
  unfold Sided
  infer_instance

variable {mbo : MboMsg}

theorem Sided.not_other (hs : mbo.Sided) : ¬ (mbo.side ≠ 'A' ∧ mbo.side ≠ 'B') := by
  intro hother
  rcases hs.2 with hA | hB
  · exact hother.1 hA
  · exact hother.2 hB

theorem other_of_not_sided (ha : mbo.action ≠ 'R') (hs : ¬ mbo.Sided) :
    mbo.side ≠ 'A' ∧ mbo.side ≠ 'B' :=
  ⟨fun hA => hs ⟨ha, Or.inl hA⟩, fun hB => hs ⟨ha, Or.inr hB⟩⟩

end MboMsg

namespace OrderBook

def takeEffect (ob : OrderBook) (mbo : MboMsg) : Effect :=
  match ob.lookup mbo.orderId with
  | none => .idle
  | some ref =>
    if mbo.size ≥ ob.sizeAt ref then .remove ref
    else .resize ref (ob.sizeAt ref - mbo.size)

def fillEffect (ob : OrderBook) (mbo : MboMsg) : Effect :=
  match ob.lookup mbo.orderId with
  | none => .idle
  | some ref => .remove ref

def modifyEffect (ob : OrderBook) (mbo : MboMsg) : Effect :=
  match ob.lookup mbo.orderId with
  | none => .place
  | some ref =>
    if mbo.size = 0 then .remove ref
    else if mbo.price ≠ ref.price then .replace ref
    else if mbo.size > ob.sizeAt ref then .requeue ref mbo.size
    else if mbo.size < ob.sizeAt ref then .resize ref mbo.size
    else .idle

def effect (ob : OrderBook) (mbo : MboMsg) : Effect :=
  if mbo.action = 'R' then .clear
  else if mbo.side ≠ 'A' ∧ mbo.side ≠ 'B' then .idle
  else
    match mbo.action with
    | 'T' => ob.takeEffect mbo
    | 'F' => ob.fillEffect mbo
    | 'N' => ob.takeEffect mbo
    | 'A' => .place
    | 'C' => ob.takeEffect mbo
    | 'M' => ob.modifyEffect mbo
    | _ => .idle

section EffectOf

variable {ob : OrderBook} {mbo : MboMsg}

theorem effect_reset (ha : mbo.action = 'R') : ob.effect mbo = .clear := by
  simp [effect, ha]

theorem effect_of_not_sided (ha : mbo.action ≠ 'R') (hs : ¬ mbo.Sided) :
    ob.effect mbo = .idle := by
  rw [effect, if_neg ha, if_pos (MboMsg.other_of_not_sided ha hs)]

/-- A message that the book does not skip has the effect of its action. -/
theorem effect_of_sided (hs : mbo.Sided) : ob.effect mbo =
    match mbo.action with
    | 'T' => ob.takeEffect mbo
    | 'F' => ob.fillEffect mbo
    | 'N' => ob.takeEffect mbo
    | 'A' => .place
    | 'C' => ob.takeEffect mbo
    | 'M' => ob.modifyEffect mbo
    | _ => .idle := by
  rw [effect, if_neg hs.1, if_neg hs.not_other]

theorem effect_trade (hs : mbo.Sided) (ha : mbo.action = 'T') :
    ob.effect mbo = ob.takeEffect mbo := by
  rw [effect_of_sided hs]
  simp only [ha]

theorem effect_fill (hs : mbo.Sided) (ha : mbo.action = 'F') :
    ob.effect mbo = ob.fillEffect mbo := by
  rw [effect_of_sided hs]
  simp only [ha]

theorem effect_add (hs : mbo.Sided) (ha : mbo.action = 'A') : ob.effect mbo = .place := by
  rw [effect_of_sided hs]
  simp only [ha]

theorem effect_cancel (hs : mbo.Sided) (ha : mbo.action = 'C') :
    ob.effect mbo = ob.takeEffect mbo := by
  rw [effect_of_sided hs]
  simp only [ha]

theorem effect_modify (hs : mbo.Sided) (ha : mbo.action = 'M') :
    ob.effect mbo = ob.modifyEffect mbo := by
  rw [effect_of_sided hs]
  simp only [ha]

theorem takeEffect_ref {ref : Ref} (he : (ob.takeEffect mbo).ref = some ref) :
    ob.lookup mbo.orderId = some ref := by
  unfold takeEffect at he
  cases hlook : ob.lookup mbo.orderId with
  | none => simp [hlook, Effect.ref] at he
  | some ref' =>
    simp only [hlook] at he
    split at he <;> exact he

theorem modifyEffect_ref {ref : Ref} (he : (ob.modifyEffect mbo).ref = some ref) :
    ob.lookup mbo.orderId = some ref := by
  unfold modifyEffect at he
  cases hlook : ob.lookup mbo.orderId with
  | none => simp [hlook, Effect.ref] at he
  | some ref' =>
    simp only [hlook] at he
    repeat' split at he
    all_goals first | exact he | simp [Effect.ref] at he

/-- An effect on a known order is about the entry of the message's own id. -/
theorem effect_ref {ref : Ref} (he : (ob.effect mbo).ref = some ref) :
    ob.lookup mbo.orderId = some ref := by
  by_cases hs : mbo.Sided
  · rw [effect_of_sided hs] at he
    split at he
    · exact takeEffect_ref he
    · cases hlook : ob.lookup mbo.orderId with
      | none => simp [fillEffect, hlook, Effect.ref] at he
      | some ref' => simpa [fillEffect, hlook, Effect.ref] using he
    · exact takeEffect_ref he
    · simp [Effect.ref] at he
    · exact takeEffect_ref he
    · exact modifyEffect_ref he
    · simp [Effect.ref] at he
  · by_cases ha : mbo.action = 'R'
    · simp [effect_reset ha, Effect.ref] at he
    · simp [effect_of_not_sided ha hs, Effect.ref] at he

theorem sided_of_places (hp : (ob.effect mbo).places) : mbo.Sided := by
  by_contra hs
  by_cases ha : mbo.action = 'R'
  · simp [effect_reset ha, Effect.places] at hp
  · simp [effect_of_not_sided ha hs, Effect.places] at hp

theorem takeEffect_places : (ob.takeEffect mbo).places = false := by
  unfold takeEffect
  split
  · rfl
  · split <;> rfl

theorem fillEffect_places : (ob.fillEffect mbo).places = false := by
  unfold fillEffect
  split <;> rfl

/-- Only an Add and a Modify place orders. -/
theorem action_of_places (hp : (ob.effect mbo).places) :
    mbo.action = 'A' ∨ mbo.action = 'M' := by
  rw [effect_of_sided (sided_of_places hp)] at hp
  split at hp
  · simp [takeEffect_places] at hp
  · simp [fillEffect_places] at hp
  · simp [takeEffect_places] at hp
  · exact Or.inl ‹_›
  · simp [takeEffect_places] at hp
  · exact Or.inr ‹_›
  · simp [Effect.places] at hp

theorem effect_eq_place_iff : ob.effect mbo = .place ↔ mbo.Sided ∧
    (mbo.action = 'A' ∨ mbo.action = 'M' ∧ ob.lookup mbo.orderId = none) := by
  constructor
  · intro he
    have hp : (ob.effect mbo).places := by rw [he]; rfl
    have hs := sided_of_places hp
    refine ⟨hs, ?_⟩
    rcases action_of_places hp with ha | ha
    · exact Or.inl ha
    · refine Or.inr ⟨ha, ?_⟩
      rw [effect_modify hs ha, modifyEffect] at he
      cases hlook : ob.lookup mbo.orderId with
      | none => rfl
      | some ref =>
        simp only [hlook] at he
        repeat' split at he
        all_goals cases he
  · rintro ⟨hs, ha | ⟨ha, hlook⟩⟩
    · exact effect_add hs ha
    · rw [effect_modify hs ha, modifyEffect, hlook]

end EffectOf

/-- The index of the message's price. -/
def msgIndex (ob : OrderBook) (mbo : MboMsg) : ℕ := ob.config.priceToIndex mbo.price

def perform (ob : OrderBook) (mbo : MboMsg) : Effect → OrderBook
  | .idle => ob
  | .clear => ob.clear
  | .place => ob.place mbo mbo.isBid (ob.msgIndex mbo)
  | .remove ref => ob.remove mbo.orderId ref
  | .resize ref size => ob.resize mbo.orderId ref size
  | .requeue ref size => ob.requeue mbo.orderId ref size
  | .replace ref => (ob.remove mbo.orderId ref).place mbo mbo.isBid (ob.msgIndex mbo)

/-- If the message places an order, its level exists. -/
def Indexed (ob : OrderBook) (mbo : MboMsg) : Prop :=
  (ob.effect mbo).places → ob.msgIndex mbo < ob.config.numLevels

@[simp] theorem config_perform (ob : OrderBook) (mbo : MboMsg) (e : Effect) :
    (ob.perform mbo e).config = ob.config := by
  cases e <;> simp [perform]

end OrderBook

end OrderBookServer
