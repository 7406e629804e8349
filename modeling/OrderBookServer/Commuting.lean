import Mathlib.Logic.Equiv.Basic
import OrderBookServer.Fills
import OrderBookServer.Frame

/-!
Messages that do not see each other. Two messages with different ids find the same order and the
same size whichever comes first, and revise different nodes. Unless both go to the back of one
queue, the two orders of applying them end in one book, up to the addresses of the new nodes.
-/
namespace OrderBookServer

open NodeList Runs

def Ref.rename (f : ℕ → ℕ) (ref : Ref) : Ref := { ref with it := f ref.it }

namespace OrderBook

section Renaming

variable {ob ob' : OrderBook} {f : ℕ → ℕ}

/-- `ob'` is `ob` with its nodes at other addresses. -/
structure Renamed (f : ℕ → ℕ) (ob ob' : OrderBook) : Prop where
  queues : ∀ b i, ob'.queue b i = (ob.queue b i).rename f
  lookups : ∀ id, ob'.lookup id = (ob.lookup id).map (Ref.rename f)

theorem Renamed.sameBook (hr : Renamed f ob ob') (hf : Function.Injective f) (h : ob.WellFormed)
    (h' : ob'.WellFormed) : SameBook ob ob' := by
  have hvals : ∀ b i, (ob.queue b i).vals = (ob'.queue b i).vals := by
    intro b i
    rw [hr.queues, Nodes.vals_rename]
  refine ⟨hvals, fun b i => ?_, fun id => ?_⟩
  · rw [h.total_eq, h'.total_eq, sizesOf_eq_of_vals_eq (hvals b i)]
  · rw [entry, entry, hr.lookups]
    cases ob.lookup id with
    | none => rfl
    | some ref =>
      simp [Ref.rename, hr.queues, Nodes.idxOf_addrs_rename hf]

end Renaming

section Entries

variable {ob ob' : OrderBook} {mbo m : MboMsg} {b : Bool} {i : ℕ} {id : UInt64} {ref : Ref}

/-- The entry that the effect leaves for the id of the message. -/
def entryAfter (ob : OrderBook) (mbo : MboMsg) : Effect → Option Ref
  | .place => some ⟨mbo.isBid, ob.msgIndex mbo, ob.nextNode, mbo.price⟩
  | .replace _ => some ⟨mbo.isBid, ob.msgIndex mbo, ob.nextNode, mbo.price⟩
  | .remove _ => none
  | .clear => none
  | _ => ob.lookup mbo.orderId

theorem lookup_perform_self (e : Effect) :
    (ob.perform mbo e).lookup mbo.orderId = ob.entryAfter mbo e := by
  cases e with
  | idle => rfl
  | clear => exact lookup_clear _
  | place => exact (lookup_place _).trans (if_pos rfl)
  | remove ref => exact (lookup_remove _).trans (if_pos rfl)
  | resize ref size => exact lookup_resize _
  | requeue ref size => exact lookup_requeue _
  | replace ref =>
    have hnext : (ob.remove mbo.orderId ref).nextNode = ob.nextNode := nextNode_setLevel ..
    simp only [perform]
    rw [lookup_place, if_pos rfl, hnext]
    rfl

theorem nextNode_perform (e : Effect) :
    (ob.perform mbo e).nextNode = ob.nextNode + if e.places then 1 else 0 := by
  cases e with
  | idle => rfl
  | clear => rfl
  | place => rfl
  | remove ref => exact nextNode_setLevel ..
  | resize ref size => exact nextNode_setLevel ..
  | requeue ref size => exact nextNode_setLevel ..
  | replace ref => exact congrArg (· + 1) (nextNode_setLevel ..)

/-- An effect is read off the entry of its id and the size of that order. -/
theorem effect_congr (hlookup : ob'.lookup mbo.orderId = ob.lookup mbo.orderId)
    (hsize : ∀ ref, ob.lookup mbo.orderId = some ref → ob'.sizeAt ref = ob.sizeAt ref) :
    ob'.effect mbo = ob.effect mbo := by
  have htake : ob'.takeEffect mbo = ob.takeEffect mbo := by
    unfold takeEffect
    rw [hlookup]
    cases href : ob.lookup mbo.orderId with
    | none => rfl
    | some ref => simp only [hsize ref href]
  have hfill : ob'.fillEffect mbo = ob.fillEffect mbo := by
    unfold fillEffect
    rw [hlookup]
  have hmodify : ob'.modifyEffect mbo = ob.modifyEffect mbo := by
    unfold modifyEffect
    rw [hlookup]
    cases href : ob.lookup mbo.orderId with
    | none => rfl
    | some ref => simp only [hsize ref href]
  simp only [effect, htake, hfill, hmodify]

/-- A message does not change what another id's message does. -/
theorem WellFormed.effect_perform (h : ob.WellFormed) (hreset : m.action ≠ 'R')
    (hi : ob.Indexed m) (hid : m.orderId ≠ mbo.orderId) :
    (ob.perform m (ob.effect m)).effect mbo = ob.effect mbo := by
  have hframed := h.framed hreset hi
  refine effect_congr (hframed.lookups _ (Ne.symm hid)) fun ref href => ?_
  have hstays := hframed.stays _ _ _ (h.node_mem href)
    fun ref' href' => h.ref_it_ne href href' (Ne.symm hid)
  have hread := (Nodes.read_eq_some_iff ((h.perform hi).addr_nodup _ _)).mpr hstays
  simp [sizeAt, hread]

/-- A renaming that fixes the old entry and hits the new node renames what the effect leaves. -/
theorem entryAfter_rename {f : ℕ → ℕ} (hconfig : ob'.config = ob.config)
    (hlookup : ob'.lookup mbo.orderId = ob.lookup mbo.orderId)
    (hfix : ∀ ref, ob.lookup mbo.orderId = some ref → f ref.it = ref.it) {e : Effect}
    (hnew : e.places → f ob.nextNode = ob'.nextNode) :
    ob'.entryAfter mbo e = (ob.entryAfter mbo e).map (Ref.rename f) := by
  have hknown : ob'.lookup mbo.orderId = (ob.lookup mbo.orderId).map (Ref.rename f) := by
    rw [hlookup]
    cases href : ob.lookup mbo.orderId with
    | none => rfl
    | some ref => simp [Ref.rename, hfix ref href]
  have hindex : ob'.msgIndex mbo = ob.msgIndex mbo := by rw [msgIndex, msgIndex, hconfig]
  cases e with
  | idle => exact hknown
  | clear => rfl
  | place => simp [entryAfter, Ref.rename, hindex, hnew rfl]
  | remove ref => rfl
  | resize ref size => exact hknown
  | requeue ref size => exact hknown
  | replace ref => simp [entryAfter, Ref.rename, hindex, hnew rfl]

theorem back_rename {f : ℕ → ℕ} (hconfig : ob'.config = ob.config) {e : Effect}
    (hfix : ∀ ref, e.ref = some ref → f ref.it = ref.it)
    (hnew : e.places → f ob.nextNode = ob'.nextNode) :
    ob'.back mbo e b i = (ob.back mbo e b i).rename f := by
  have hindex : ob'.msgIndex mbo = ob.msgIndex mbo := by rw [msgIndex, msgIndex, hconfig]
  have hslot : ob'.backSlot mbo e = ob.backSlot mbo e := by cases e <;> simp [backSlot, hindex]
  by_cases hb : ob.backSlot mbo e = some (b, i)
  · rw [back_of_slot hb, back_of_slot (hslot.trans hb)]
    cases e with
    | place => simp [Nodes.rename, backNode, hnew rfl]
    | replace ref => simp [Nodes.rename, backNode, hnew rfl]
    | requeue ref size => simp [Nodes.rename, backNode, hfix ref rfl]
    | idle => simp [backSlot] at hb
    | clear => simp [backSlot] at hb
    | remove ref => simp [backSlot] at hb
    | resize ref size => simp [backSlot] at hb
  · rw [back_of_ne hb, back_of_ne (by rwa [hslot])]
    rfl

/-- A revision leaves alone what another id's message put at the back. -/
theorem revise_back (h : ob.WellFormed) (hid : m.orderId ≠ mbo.orderId) :
    (ob.effect mbo).revise mbo.orderId (ob.back m (ob.effect m) b i) =
      ob.back m (ob.effect m) b i := by
  unfold Effect.revise
  cases href : (ob.effect mbo).ref with
  | none => rfl
  | some ref =>
    have hknown := effect_ref href
    apply Nodes.revise_of_notMem
    by_cases hb : ob.backSlot m (ob.effect m) = some (b, i)
    · have hfresh : ref.it ≠ ob.nextNode := by
        have := h.addr_lt _ _ _ (h.node_mem hknown)
        simp only at this
        omega
      rw [back_of_slot hb]
      cases he : ob.effect m with
      | requeue ref' size =>
        have hknown' : ob.lookup m.orderId = some ref' := effect_ref (by rw [he]; rfl)
        simpa [Nodes.addrs, backNode] using h.ref_it_ne hknown hknown' (Ne.symm hid)
      | place => simpa [Nodes.addrs, backNode] using hfresh
      | replace ref' => simpa [Nodes.addrs, backNode] using hfresh
      | idle => simp [he, backSlot] at hb
      | clear => simp [he, backSlot] at hb
      | remove ref' => simp [he, backSlot] at hb
      | resize ref' size => simp [he, backSlot] at hb
    · rw [back_of_ne hb]
      simp [Nodes.addrs]

theorem effect_revise_append (e : Effect) (id : UInt64) (q q' : Nodes Order) :
    e.revise id (q ++ q') = e.revise id q ++ e.revise id q' := by
  unfold Effect.revise
  cases e.ref with
  | none => rfl
  | some ref => exact Nodes.revise_append ..

theorem effect_revise_comm (h : ob.WellFormed) (hid : m.orderId ≠ mbo.orderId) (q : Nodes Order) :
    (ob.effect mbo).revise mbo.orderId ((ob.effect m).revise m.orderId q) =
      (ob.effect m).revise m.orderId ((ob.effect mbo).revise mbo.orderId q) := by
  unfold Effect.revise
  cases href : (ob.effect m).ref with
  | none => rfl
  | some ref =>
    cases href' : (ob.effect mbo).ref with
    | none => rfl
    | some ref' =>
      exact Nodes.revise_comm q (h.ref_it_ne (effect_ref href) (effect_ref href') hid)

end Entries

section Exchange

variable {ob : OrderBook} {m₁ m₂ : MboMsg} {b : Bool} {i : ℕ}

/-- Where two messages both place orders, their two new nodes change places. -/
def exchange (n : ℕ) (e₁ e₂ : Effect) : ℕ → ℕ :=
  if e₁.places ∧ e₂.places then Equiv.swap n (n + 1) else id

theorem exchange_injective (n : ℕ) (e₁ e₂ : Effect) : Function.Injective (exchange n e₁ e₂) := by
  unfold exchange
  split
  · exact Equiv.injective _
  · exact Function.injective_id

theorem exchange_of_lt {n a : ℕ} (ha : a < n) (e₁ e₂ : Effect) : exchange n e₁ e₂ a = a := by
  unfold exchange
  split
  · exact Equiv.swap_apply_of_ne_of_ne (by omega) (by omega)
  · rfl

theorem exchange_left {n : ℕ} {e₁ e₂ : Effect} (hp : e₁.places) :
    exchange n e₁ e₂ n = n + if e₂.places then 1 else 0 := by
  by_cases hp₂ : e₂.places
  · simp [exchange, hp, hp₂]
  · simp [exchange, hp₂]

theorem exchange_right {n : ℕ} {e₁ e₂ : Effect} (hp : e₂.places) :
    exchange n e₁ e₂ (n + if e₁.places then 1 else 0) = n := by
  by_cases hp₁ : e₁.places
  · simp [exchange, hp, hp₁]
  · simp [exchange, hp₁]

/-- The book after a message that it can apply. -/
def next (ob : OrderBook) (mbo : MboMsg) : OrderBook := ob.perform mbo (ob.effect mbo)

/-- What is asked of two messages, in a book that is well formed, to be independent. -/
structure Independent (ob : OrderBook) (m₁ m₂ : MboMsg) : Prop where
  reset_left : m₁.action ≠ 'R'
  reset_right : m₂.action ≠ 'R'
  ids : m₁.orderId ≠ m₂.orderId
  indexed_left : ob.Indexed m₁
  indexed_right : ob.Indexed m₂
  apart : ¬ ∃ b i, ob.PutsBack m₁ b i ∧ ob.PutsBack m₂ b i

theorem Independent.symm (hind : ob.Independent m₁ m₂) : ob.Independent m₂ m₁ where
  reset_left := hind.reset_right
  reset_right := hind.reset_left
  ids := Ne.symm hind.ids
  indexed_left := hind.indexed_right
  indexed_right := hind.indexed_left
  apart := fun ⟨b, i, hback, hback'⟩ => hind.apart ⟨b, i, hback', hback⟩

theorem Independent.effect_eq (hind : ob.Independent m₁ m₂) (h : ob.WellFormed) :
    (ob.next m₁).effect m₂ = ob.effect m₂ :=
  h.effect_perform hind.reset_left hind.indexed_left hind.ids

theorem Independent.indexed_next (hind : ob.Independent m₁ m₂) (h : ob.WellFormed) :
    (ob.next m₁).Indexed m₂ := by
  intro hp
  rw [hind.effect_eq h] at hp
  have hlt := hind.indexed_right hp
  rwa [msgIndex, next, config_perform]

theorem Independent.wellFormed (hind : ob.Independent m₁ m₂) (h : ob.WellFormed) :
    ((ob.next m₁).next m₂).WellFormed := (h.perform hind.indexed_left).perform (hind.indexed_next h)

theorem Independent.queue_next (hind : ob.Independent m₁ m₂) (h : ob.WellFormed) :
    ((ob.next m₁).next m₂).queue b i = (ob.effect m₂).revise m₂.orderId
        ((ob.effect m₁).revise m₁.orderId (ob.queue b i)) ++
      (ob.back m₁ (ob.effect m₁) b i ++ (ob.next m₁).back m₂ (ob.effect m₂) b i) := by
  have h₁ : (ob.next m₁).WellFormed := h.perform hind.indexed_left
  rw [next, h₁.queue_perform hind.reset_right (hind.indexed_next h), hind.effect_eq h, next,
    h.queue_perform hind.reset_left hind.indexed_left, effect_revise_append,
    revise_back h hind.ids, List.append_assoc]

/-- The entries of the two ids and of the others. -/
theorem Independent.lookup_next (hind : ob.Independent m₁ m₂) (h : ob.WellFormed) (id : UInt64) :
    ((ob.next m₁).next m₂).lookup id =
      if id = m₂.orderId then (ob.next m₁).entryAfter m₂ (ob.effect m₂)
      else if id = m₁.orderId then ob.entryAfter m₁ (ob.effect m₁) else ob.lookup id := by
  by_cases hid₂ : id = m₂.orderId
  · rw [if_pos hid₂, hid₂, next, lookup_perform_self, hind.effect_eq h]
  · rw [if_neg hid₂, next, lookup_perform_of_ne hind.reset_right hid₂, next]
    by_cases hid₁ : id = m₁.orderId
    · rw [if_pos hid₁, hid₁, lookup_perform_self]
    · rw [if_neg hid₁, lookup_perform_of_ne hind.reset_left hid₁]

theorem WellFormed.it_lt (h : ob.WellFormed) {id : UInt64} {ref : Ref}
    (href : ob.lookup id = some ref) : ref.it < ob.nextNode := h.addr_lt _ _ _ (h.node_mem href)

theorem addr_lt_of_mem_revise (h : ob.WellFormed) (e₁ e₂ : Effect) {id₁ id₂ : UInt64} {a : ℕ}
    (ha : a ∈ (e₂.revise id₂ (e₁.revise id₁ (ob.queue b i))).addrs) : a < ob.nextNode := by
  have hsub := (addrs_effect_revise_sublist e₂ id₂ _).trans
    (addrs_effect_revise_sublist e₁ id₁ (ob.queue b i))
  obtain ⟨o, ho⟩ := Nodes.mem_addrs.mp (hsub.subset ha)
  exact h.addr_lt _ _ _ ho

/-- The exchange renames the node of the first message as it is when it comes second. -/
theorem WellFormed.back_left (h : ob.WellFormed) :
    (ob.next m₂).back m₁ (ob.effect m₁) b i = (ob.back m₁ (ob.effect m₁) b i).rename
      (exchange ob.nextNode (ob.effect m₁) (ob.effect m₂)) := by
  apply back_rename (config_perform ..)
  · intro ref he
    exact exchange_of_lt (h.it_lt (effect_ref he)) ..
  · intro hp
    rw [exchange_left hp]
    exact (nextNode_perform _).symm

theorem WellFormed.back_right (h : ob.WellFormed) :
    ob.back m₂ (ob.effect m₂) b i = ((ob.next m₁).back m₂ (ob.effect m₂) b i).rename
      (exchange ob.nextNode (ob.effect m₁) (ob.effect m₂)) := by
  apply back_rename (config_perform ..).symm
  · intro ref he
    exact exchange_of_lt (h.it_lt (effect_ref he)) ..
  · intro hp
    rw [nextNode_perform]
    exact exchange_right hp

/-- At most one of the two messages goes to the back of a queue. -/
theorem Independent.back_comm (hind : ob.Independent m₁ m₂) (h : ob.WellFormed) :
    ob.back m₂ (ob.effect m₂) b i ++ (ob.next m₂).back m₁ (ob.effect m₁) b i =
      (ob.next m₂).back m₁ (ob.effect m₁) b i ++ ob.back m₂ (ob.effect m₂) b i := by
  by_cases hback : ob.PutsBack m₁ b i
  · have hother : ob.back m₂ (ob.effect m₂) b i = [] := by
      apply back_of_ne
      exact fun hslot => hind.apart ⟨b, i, hback, backSlot_eq_some_iff.mp hslot⟩
    rw [hother, List.nil_append, List.append_nil]
  · have hnone : (ob.next m₂).back m₁ (ob.effect m₁) b i = [] := by
      rw [h.back_left, back_of_ne (mt backSlot_eq_some_iff.mp hback)]
      rfl
    rw [hnone, List.nil_append, List.append_nil]

/-- Both orders of two independent messages end in one book, up to two addresses. -/
theorem Independent.renamed (hind : ob.Independent m₁ m₂) (h : ob.WellFormed) :
    Renamed (exchange ob.nextNode (ob.effect m₁) (ob.effect m₂)) ((ob.next m₁).next m₂)
      ((ob.next m₂).next m₁) := by
  constructor
  · intro b i
    rw [hind.queue_next h, hind.symm.queue_next h, effect_revise_comm h hind.symm.ids,
      Nodes.rename_append, Nodes.rename_append, ← h.back_left, ← h.back_right,
      hind.back_comm h, Nodes.rename_of_fixed]
    intro a ha
    exact exchange_of_lt (addr_lt_of_mem_revise h _ _ ha) ..
  · intro id
    have hfix : ∀ id ref, ob.lookup id = some ref →
        exchange ob.nextNode (ob.effect m₁) (ob.effect m₂) ref.it = ref.it :=
      fun id ref href => exchange_of_lt (h.it_lt href) ..
    rw [hind.lookup_next h, hind.symm.lookup_next h]
    by_cases hid₁ : id = m₁.orderId
    · have hid₂ : id ≠ m₂.orderId := fun hid₂ => hind.ids (hid₁.symm.trans hid₂)
      rw [if_pos hid₁, if_neg hid₂, if_pos hid₁]
      apply entryAfter_rename (config_perform ..)
      · exact lookup_perform_of_ne hind.reset_right hind.ids
      · exact hfix _
      · intro hp
        rw [exchange_left hp]
        exact (nextNode_perform _).symm
    · by_cases hid₂ : id = m₂.orderId
      · have hsame : (ob.next m₁).lookup m₂.orderId = ob.lookup m₂.orderId :=
          lookup_perform_of_ne hind.reset_left (Ne.symm hind.ids)
        rw [if_neg hid₁, if_pos hid₂, if_pos hid₂]
        apply entryAfter_rename (config_perform ..).symm hsame.symm
        · intro ref href
          exact hfix _ ref (hsame.symm.trans href)
        · intro hp
          rw [nextNode_perform]
          exact exchange_right hp
      · rw [if_neg hid₁, if_neg hid₂, if_neg hid₂, if_neg hid₁]
        cases href : ob.lookup id with
        | none => rfl
        | some ref => simp [Ref.rename, hfix id ref href]

end Exchange

section Reachable

variable {priceMin priceMax tick : Int64} {ob₀ ob : OrderBook} {msgs : List MboMsg}
variable {m₁ m₂ : MboMsg}

/-- In every reachable state two messages with different ids, no resets, lead to the same book in
both orders, unless both go to the back of one queue. -/
theorem sameBook_of_apart (hnew : new priceMin priceMax tick = some ob₀)
    (hrun : ob₀.run msgs = .ok ob) (hreset₁ : m₁.action ≠ 'R') (hreset₂ : m₂.action ≠ 'R')
    (hids : m₁.orderId ≠ m₂.orderId)
    (hapart : ¬ ∃ b i, ob.PutsBack m₁ b i ∧ ob.PutsBack m₂ b i) :
    (∀ ob₁ ob₂, ob.step m₁ = .ok ob₁ → ob.step m₂ = .ok ob₂ →
      ∃ ob₁₂ ob₂₁, ob₁.step m₂ = .ok ob₁₂ ∧ ob₂.step m₁ = .ok ob₂₁ ∧ SameBook ob₁₂ ob₂₁) ∧
      (0 < tick → priceMin ≤ priceMax → PriceInRange ob₀.config m₁ → PriceInRange ob₀.config m₂ →
        ∃ ob₁ ob₂, ob.step m₁ = .ok ob₁ ∧ ob.step m₂ = .ok ob₂) := by
  obtain ⟨h, hconfig⟩ := bookOf_of_run hnew hrun
  constructor
  · intro ob₁ ob₂ hok₁ hok₂
    obtain ⟨hi₁, rfl⟩ := h.step_ok_iff.mp hok₁
    obtain ⟨hi₂, rfl⟩ := h.step_ok_iff.mp hok₂
    have hind : ob.Independent m₁ m₂ := ⟨hreset₁, hreset₂, hids, hi₁, hi₂, hapart⟩
    refine ⟨_, _, (h.perform hi₁).step_of_indexed (hind.indexed_next h),
      (h.perform hi₂).step_of_indexed (hind.symm.indexed_next h), ?_⟩
    exact (hind.renamed h).sameBook (exchange_injective ..) (hind.wellFormed h)
      (hind.symm.wellFormed h)
  · intro ht hp hrange₁ hrange₂
    have hc := valid_new hnew ht hp
    have hm₁ := hrange₁.indexes hc
    have hm₂ := hrange₂.indexes hc
    rw [← hconfig] at hm₁ hm₂
    exact ⟨_, _, h.step_of_indexed hm₁.indexed, h.step_of_indexed hm₂.indexed⟩

/-- A Cancel at the front of a queue and a Modify that moves to its back. -/
theorem sameBook_of_apart_twoAdds : ∃ ob,
    threeLevels.run [⟨1, 100, 5, 'A', 'B'⟩, ⟨2, 100, 4, 'A', 'B'⟩] = .ok ob ∧
    (∀ ob₁ ob₂, ob.step ⟨1, 100, 5, 'C', 'B'⟩ = .ok ob₁ → ob.step ⟨2, 100, 9, 'M', 'B'⟩ = .ok ob₂ →
      ∃ ob₁₂ ob₂₁, ob₁.step ⟨2, 100, 9, 'M', 'B'⟩ = .ok ob₁₂ ∧
        ob₂.step ⟨1, 100, 5, 'C', 'B'⟩ = .ok ob₂₁ ∧ SameBook ob₁₂ ob₂₁) ∧
      ((0 : Int64) < 100 → (0 : Int64) ≤ 200 →
        PriceInRange threeLevels.config ⟨1, 100, 5, 'C', 'B'⟩ →
        PriceInRange threeLevels.config ⟨2, 100, 9, 'M', 'B'⟩ →
        ∃ ob₁ ob₂, ob.step ⟨1, 100, 5, 'C', 'B'⟩ = .ok ob₁ ∧
          ob.step ⟨2, 100, 9, 'M', 'B'⟩ = .ok ob₂) := by
  obtain ⟨ob, hrun, _⟩ := (bookOf_new new_threeLevels).run
    (by decide : ∀ mbo ∈ [(⟨1, 100, 5, 'A', 'B'⟩ : MboMsg), ⟨2, 100, 4, 'A', 'B'⟩], Indexes _ mbo)
  refine ⟨ob, hrun, sameBook_of_apart new_threeLevels hrun (by decide) (by decide) (by decide) ?_⟩
  rintro ⟨b, i, ⟨_, ⟨hplaces, _⟩ | ⟨ref, hgrows, _⟩⟩, _⟩
  · simp [PlacesOrder] at hplaces
  · simp [Grows] at hgrows

end Reachable

end OrderBook

end OrderBookServer
