import OrderBookServer.Safety

/-!
Trades and fills. The book takes the executed size off the order a 'T' or an 'F'
names, so a feed with these messages and the same feed without them lead to the
same book only as long as every one of them is quiet: it names no known order, or
it is a trade of size zero against an order that still has a size.
-/
namespace OrderBookServer.OrderBook

open NodeList Runs

/-- The messages of an execution: trades and fills. -/
def isExecution (mbo : MboMsg) : Bool := mbo.action = 'T' ∨ mbo.action = 'F'

def Quiet (ob : OrderBook) (mbo : MboMsg) : Prop :=
  mbo.Sided → mbo.action = 'T' ∨ mbo.action = 'F' → ∀ ref, ob.lookup mbo.orderId = some ref →
    mbo.action = 'T' ∧ mbo.size = 0 ∧ ob.sizeAt ref ≠ 0

/-- An entry of the table, with the position of its iterator in the queue. -/
def entry (ob : OrderBook) (id : UInt64) : Option (Bool × ℕ × Int64 × ℕ) :=
  (ob.lookup id).map fun ref => (ref.isBid, ref.index, ref.price,
    (ob.queue ref.isBid ref.index).addrs.idxOf ref.it)

/-- Equal queues of orders, equal totals and equal tables; node addresses may differ. -/
structure SameBook (ob ob' : OrderBook) : Prop where
  queues : ∀ b i, (ob.queue b i).vals = (ob'.queue b i).vals
  totals : ∀ b i, (ob.level b i).totalSize = (ob'.level b i).totalSize
  entries : ∀ id, ob.entry id = ob'.entry id

theorem SameBook.refl (ob : OrderBook) : SameBook ob ob :=
  ⟨fun _ _ => rfl, fun _ _ => rfl, fun _ => rfl⟩

theorem sizesOf_eq_of_vals_eq {q q' : Nodes Order} (h : q.vals = q'.vals) :
    sizesOf q = sizesOf q' := by
  have hsum : ∀ q : Nodes Order, sizesOf q = (q.vals.map (fun o => o.size.toNat)).sum := by
    intro q
    rw [Nodes.vals, List.map_map]
    rfl
  rw [hsum, hsum, h]

section Steps

variable {ob ob' : OrderBook} {mbo : MboMsg} {b : Bool} {i : ℕ} {id : UInt64} {ref : Ref}

theorem setLevel_level (hi : i < (ob.side b).length) : ob.setLevel b i (ob.level b i) = ob := by
  cases b with
  | false =>
    have hi' : i < ob.asks.length := hi
    simp [setLevel, level, side, hi']
  | true =>
    have hi' : i < ob.bids.length := hi
    simp [setLevel, level, side, hi']

/-- Writing the size that an order has changes nothing. -/
theorem WellFormed.resize_sizeAt (h : ob.WellFormed) (href : ob.lookup id = some ref) :
    ob.resize id ref (ob.sizeAt ref) = ob := by
  have hwrite : (ob.queue ref.isBid ref.index).write ref.it ⟨id, ob.sizeAt ref⟩ =
      ob.queue ref.isBid ref.index := by
    rw [Nodes.write, List.map_congr_left (g := fun n => n), List.map_id']
    intro n hn
    split
    · rename_i haddr
      obtain ⟨a, o⟩ := n
      subst haddr
      rw [Nodes.node_unique (h.addr_nodup _ _) hn (h.node_mem href)]
    · rfl
  rw [OrderBook.resize, hwrite, setQueue, ← h.level_eq]
  exact setLevel_level (h.index_lt href)

theorem step_of_quiet (h : ob.WellFormed) (hx : isExecution mbo) (hq : ob.Quiet mbo) :
    ob.step mbo = .ok ob := by
  have hact : mbo.action = 'T' ∨ mbo.action = 'F' := by simpa [isExecution] using hx
  have hreset : mbo.action ≠ 'R' := by
    intro hR
    simp [hR] at hact
  have hperform : ob.perform mbo (ob.effect mbo) = ob ∧ (ob.effect mbo).places = false := by
    by_cases hs : mbo.Sided
    · cases href : ob.lookup mbo.orderId with
      | none =>
        have hidle : ob.effect mbo = .idle := by
          rcases hact with ha | ha
          · rw [effect_trade hs ha, takeEffect, href]
          · rw [effect_fill hs ha, fillEffect, href]
        rw [hidle]
        exact ⟨rfl, rfl⟩
      | some ref =>
        obtain ⟨ha, hzero, hsize⟩ := hq hs hact ref href
        have hlt : ¬ mbo.size ≥ ob.sizeAt ref := by
          rw [hzero]
          intro hle
          exact hsize (UInt32.le_zero_iff.mp hle)
        have hresize : ob.effect mbo = .resize ref (ob.sizeAt ref) := by
          rw [effect_trade hs ha, takeEffect, href]
          simp only [if_neg hlt]
          rw [hzero, UInt32.sub_zero]
        rw [hresize]
        exact ⟨h.resize_sizeAt href, rfl⟩
    · rw [effect_of_not_sided hreset hs]
      exact ⟨rfl, rfl⟩
  rw [h.step_of_indexed (fun hp => by simp [hperform.2] at hp), hperform.1]

theorem not_sameBook_remove (href : ob.lookup id = some ref) :
    ¬ SameBook (ob.remove id ref) ob := by
  intro hsame
  have hentry := hsame.entries id
  simp [entry, lookup_remove, href] at hentry

/-- Taking part of an order's size shows in the sizes of its queue. -/
theorem WellFormed.not_sameBook_resize (h : ob.WellFormed) (href : ob.lookup id = some ref)
    {size : UInt32} (hne : size ≠ ob.sizeAt ref) : ¬ SameBook (ob.resize id ref size) ob := by
  intro hsame
  have hsizes := sizesOf_eq_of_vals_eq (hsame.queues ref.isBid ref.index)
  rw [h.queue_resize href, if_pos ⟨rfl, rfl⟩] at hsizes
  have hwrite := sizesOf_write (h.addr_nodup _ _) (h.node_mem href) ⟨id, size⟩
  simp only at hwrite
  exact hne (UInt32.toNat_inj.mp (by omega))

theorem WellFormed.quiet_of_sameBook (h : ob.WellFormed) (hok : ob.step mbo = .ok ob')
    (hsame : SameBook ob' ob) : ob.Quiet mbo := by
  intro hs hact ref href
  obtain ⟨_, rfl⟩ := h.step_ok_iff.mp hok
  rcases hact with ha | ha
  · rw [effect_trade hs ha, takeEffect, href] at hsame
    simp only at hsame
    split at hsame
    · exact absurd hsame (not_sameBook_remove href)
    · rename_i hlt
      by_contra hloud
      have hlt' : mbo.size < ob.sizeAt ref := UInt32.not_le.mp hlt
      have hsize := UInt32.toNat_sub_of_le _ _ (UInt32.le_of_lt hlt')
      have hlt'' := UInt32.lt_iff_toNat_lt.mp hlt'
      have hzero : mbo.size ≠ 0 := by
        intro hzero
        refine hloud ⟨ha, hzero, fun hempty => ?_⟩
        simp [hzero, hempty] at hlt'
      have hpos : mbo.size.toNat ≠ 0 := fun hnat => hzero (UInt32.toNat_inj.mp hnat)
      refine h.not_sameBook_resize href (fun heq => ?_) hsame
      have hnat := congrArg UInt32.toNat heq
      omega
  · rw [effect_fill hs ha, fillEffect, href] at hsame
    exact absurd hsame (not_sameBook_remove href)

end Steps

/-- Dropping the trades and fills makes no difference to any book along the way
exactly when each of them is quiet in the book it is applied to. -/
theorem sameBook_iff_quiet {priceMin priceMax tick : Int64} {ob₀ : OrderBook}
    (hnew : new priceMin priceMax tick = some ob₀) (ht : 0 < tick) (hp : priceMin ≤ priceMax)
    (msgs : List MboMsg) (hmsgs : ∀ mbo ∈ msgs, PriceInRange ob₀.config mbo) :
    (∀ pre, pre <+: msgs → ∃ ob ob', ob₀.run pre = .ok ob ∧
      ob₀.run (pre.filter (fun mbo => !isExecution mbo)) = .ok ob' ∧ SameBook ob ob') ↔
    Along step Quiet ob₀ msgs := by
  have hvalid := valid_new hnew ht hp
  refine same_without_iff_along (BookOf ob₀.config) (PriceInRange ob₀.config) isExecution
    SameBook.refl (fun ob mbo hs hm => hs.step (hm.indexes hvalid)) ?_ ?_ ?_ (bookOf_new hnew) hmsgs
  · intro ob mbo hx hs hact
    simp [isExecution, hact] at hx
  · intro ob mbo ob' hs _ _ hok hsame
    exact hs.1.quiet_of_sameBook hok hsame
  · intro ob mbo hs hx hq
    exact step_of_quiet hs.1 hx hq

theorem sameBook_iff_quiet_reusedId :
    (∀ pre, pre <+: reusedId → ∃ ob ob', threeLevels.run pre = .ok ob ∧
      threeLevels.run (pre.filter (fun mbo => !isExecution mbo)) = .ok ob' ∧ SameBook ob ob') ↔
    Along step Quiet threeLevels reusedId :=
  sameBook_iff_quiet new_threeLevels (by decide) (by decide) reusedId (by decide)

/-- A fill takes a resting order off the book, and off the table. -/
theorem not_sameBook_after_fill : ∃ ob ob',
    threeLevels.run [⟨10, 100, 5, 'A', 'B'⟩, ⟨10, 100, 999, 'F', 'B'⟩] = .ok ob ∧
      threeLevels.run ([⟨10, 100, 5, 'A', 'B'⟩, ⟨10, 100, 999, 'F', 'B'⟩].filter
        (fun mbo => !isExecution mbo)) = .ok ob' ∧ ¬ SameBook ob ob' := by
  obtain ⟨ob, hrun, _⟩ := (bookOf_new new_threeLevels).run
    (by decide : ∀ mbo ∈ [⟨10, 100, 5, 'A', 'B'⟩, ⟨10, 100, 999, 'F', 'B'⟩], Indexes _ mbo)
  obtain ⟨ob', hrun', _⟩ := (bookOf_new new_threeLevels).run
    (by decide : ∀ mbo ∈ [⟨10, 100, 5, 'A', 'B'⟩], Indexes _ mbo)
  refine ⟨ob, ob', hrun, hrun', fun hsame => ?_⟩
  have hfound : (threeLevels.run [⟨10, 100, 5, 'A', 'B'⟩, ⟨10, 100, 999, 'F', 'B'⟩]).map
      (fun ob => (ob.entry 10).isSome) = .ok false := by decide
  have hfound' : (threeLevels.run [⟨10, 100, 5, 'A', 'B'⟩]).map
      (fun ob => (ob.entry 10).isSome) = .ok true := by decide
  simp only [hrun, hrun', Except.map, Except.ok.injEq] at hfound hfound'
  rw [hsame.entries, hfound'] at hfound
  cases hfound

end OrderBookServer.OrderBook
