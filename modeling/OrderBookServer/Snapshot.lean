import OrderBookServer.Safety
import OrderBookServer.Views

/-!
The views against the orders they summarise. Along a run each node carries the price of
the last Add or Modify of its order; it is the price of the node's level. The views
are then exact, up to the size of the totals: a snapshot stores a total as a signed
number, so it is right exactly as long as every level holds less than 2^63.
-/
namespace OrderBookServer.OrderBook

open NodeList Runs

variable {δ : Type}

/-- A book, and the price that the last Add or Modify of each node carried. -/
structure Tracked where
  book : OrderBook
  carried : ℕ → Int64

/-- After an Add or a Modify the node of the message's id carries the message's price. -/
def carry (ob : OrderBook) (mbo : MboMsg) (carried : ℕ → Int64) : ℕ → Int64 :=
  if mbo.Sided ∧ (mbo.action = 'A' ∨ mbo.action = 'M') then
    match ob.lookup mbo.orderId with
    | some ref => fun a => if a = ref.it then mbo.price else carried a
    | none => carried
  else carried

def Tracked.step (s : Tracked) (mbo : MboMsg) : Except Fault Tracked :=
  (s.book.step mbo).map fun ob => ⟨ob, ob.carry mbo s.carried⟩

/-- Every node carries the price of its level. -/
structure Tracked.Consistent (c : Config) (s : Tracked) : Prop where
  bookOf : BookOf c s.book
  price_eq : ∀ b i, ∀ n ∈ s.book.queue b i, (s.carried n.addr).toInt = c.levelPrice i

section Steps

variable {c : Config} {ob : OrderBook} {mbo : MboMsg} {ref : Ref} {s : Tracked}

/-- An Add or a Modify leaves its price in the entry of its id. -/
theorem price_of_lookup_perform (hs : mbo.Sided) (ha : mbo.action = 'A' ∨ mbo.action = 'M')
    (href : (ob.perform mbo (ob.effect mbo)).lookup mbo.orderId = some ref) :
    ref.price = mbo.price := by
  have hplace : ∀ (ob : OrderBook) (b : Bool) (i : ℕ),
      (ob.place mbo b i).lookup mbo.orderId = some ref → ref.price = mbo.price := by
    intro ob b i hlook
    rw [lookup_place, if_pos rfl] at hlook
    cases hlook
    rfl
  rcases ha with ha | ha
  · rw [effect_add hs ha] at href
    exact hplace _ _ _ href
  · rw [effect_modify hs ha] at href
    unfold modifyEffect at href
    cases hlook : ob.lookup mbo.orderId with
    | none =>
      simp only [hlook, perform] at href
      exact hplace _ _ _ href
    | some old =>
      simp only [hlook] at href
      by_cases hzero : mbo.size = 0
      · simp only [if_pos hzero, perform, lookup_remove, if_true] at href
        cases href
      by_cases hprice : mbo.price ≠ old.price
      · simp only [if_neg hzero, if_pos hprice, perform] at href
        exact hplace _ _ _ href
      have hsame : some old = some ref := by
        simp only [if_neg hzero, if_neg hprice] at href
        rw [← hlook, ← href]
        split
        · exact (lookup_requeue _).symm
        · split
          · exact (lookup_resize _).symm
          · rfl
      cases hsame
      exact (not_not.mp hprice).symm

/-- The node that a message places is the node of its id. -/
theorem lookup_perform_of_places (hp : (ob.effect mbo).places) : ∃ ref,
    (ob.perform mbo (ob.effect mbo)).lookup mbo.orderId = some ref ∧ ref.it = ob.nextNode := by
  cases he : ob.effect mbo with
  | place => exact ⟨_, by rw [perform, lookup_place, if_pos rfl], rfl⟩
  | replace old =>
    refine ⟨_, by rw [perform, lookup_place, if_pos rfl], ?_⟩
    exact nextNode_setLevel ..
  | idle => simp [he, Effect.places] at hp
  | clear => simp [he, Effect.places] at hp
  | remove old => simp [he, Effect.places] at hp
  | resize old size => simp [he, Effect.places] at hp
  | requeue old size => simp [he, Effect.places] at hp

theorem Tracked.Consistent.step (h : s.Consistent c) (hc : c.Valid)
    (hrange : PriceInRange c mbo) (hgrid : PriceOnGrid c mbo) :
    ∃ s', s.step mbo = .ok s' ∧ s'.Consistent c := by
  obtain ⟨⟨hwf, hconfig⟩, hprice⟩ := h
  have hindexes : Indexes s.book.config mbo := by
    rw [hconfig]
    exact hrange.indexes hc
  have hi : s.book.Indexed mbo := hindexes.indexed
  have hok := hwf.step_of_indexed hi
  have hwf' := hwf.perform hi
  have hconfig' : (s.book.perform mbo (s.book.effect mbo)).config = c :=
    (config_perform ..).trans hconfig
  refine ⟨_, by rw [Tracked.step, hok]; rfl, ⟨hwf', hconfig'⟩, fun b i n hn => ?_⟩
  simp only at hn ⊢
  have hold : n.addr ∈ (s.book.queue b i).addrs → (s.carried n.addr).toInt = c.levelPrice i := by
    intro haddr
    obtain ⟨m, hm, heq⟩ := List.mem_map.mp haddr
    rw [← heq]
    exact hprice b i m hm
  have hcases := hwf.addr_mem_queue_perform hi hn
  unfold carry
  split
  · rename_i hact
    cases href : (s.book.perform mbo (s.book.effect mbo)).lookup mbo.orderId with
    | some ref =>
      by_cases haddr : n.addr = ref.it
      · -- The node of the message's id stands at the level of the message's price.
        have hnode := hwf'.node_mem href
        obtain ⟨_, hidx⟩ := hwf'.addr_slot _ _ _ _ _ _ hn hnode haddr
        obtain ⟨_, hindex⟩ := hwf'.ref_index _ _ href
        rw [price_of_lookup_perform hact.1 hact.2 href, hconfig'] at hindex
        simp only [if_pos haddr]
        rw [hidx, hindex, hc.levelPrice_priceToIndex (hrange hact.2) (hgrid hact.2)]
      · simp only [if_neg haddr]
        rcases hcases with hmem | ⟨hp, hnew⟩
        · exact hold hmem
        · obtain ⟨ref', href', hit⟩ := lookup_perform_of_places hp
          rw [href] at href'
          cases href'
          exact absurd (hnew.trans hit.symm) haddr
    | none =>
      rcases hcases with hmem | ⟨hp, _⟩
      · exact hold hmem
      · obtain ⟨ref', href', _⟩ := lookup_perform_of_places hp
        rw [href] at href'
        cases href'
  · rename_i hact
    rcases hcases with hmem | ⟨hp, _⟩
    · exact hold hmem
    · exact absurd ⟨sided_of_places hp, action_of_places hp⟩ hact

/-- Tracking does not change the run of the book. -/
theorem Tracked.run_book {s t : Tracked} {msgs : List MboMsg}
    (h : Runs.run Tracked.step s msgs = .ok t) : s.book.run msgs = .ok t.book := by
  induction msgs generalizing s with
  | nil =>
    cases h
    rfl
  | cons mbo msgs ih =>
    obtain ⟨s', hok, hrun⟩ := run_cons_ok h
    have hbook : s.book.step mbo = .ok s'.book := by
      unfold Tracked.step at hok
      cases hstep : s.book.step mbo with
      | ok ob =>
        rw [hstep] at hok
        cases hok
        rfl
      | error e =>
        rw [hstep] at hok
        cases hok
    rw [OrderBook.run, run_cons_of_ok hbook]
    exact ih hrun

end Steps

section Views

def signedEntry (e : Int64 × Int64) : ℤ × ℤ := (e.1.toInt, e.2.toInt)

def unsignedEntry (e : Int64 × UInt64) : ℤ × ℤ := (e.1.toInt, e.2.toNat)

/-- One side of a snapshot with these entries; an empty side is a null. -/
def snapshotSide : List (Int64 × Int64) → Json δ
  | [] => .null
  | es => .array (es.map fun e => .object [
      (['p', 'r', 'i', 'c', 'e'], .ofValue (.int64 e.1)),
      (['s', 'i', 'z', 'e'], .ofValue (.int64 e.2))])

/-- The entries are the non-empty levels of the side, each once, from the best price on,
each with the price all its orders carry and the sum of their sizes. -/
structure ListsLevels (ob : OrderBook) (carried : ℕ → Int64) (b : Bool)
    (entries : List (ℤ × ℤ)) : Prop where
  sorted : entries.Pairwise fun e e' => if b then e'.1 < e.1 else e.1 < e'.1
  levels : ∃ indices : List ℕ, indices.Nodup ∧ (∀ i, i ∈ indices ↔ ob.queue b i ≠ []) ∧
    List.Forall₂ (fun (i : ℕ) (e : ℤ × ℤ) =>
      (∀ n ∈ ob.queue b i, (carried n.addr).toInt = e.1) ∧
      e.2 = (((ob.queue b i).map fun n => n.val.size.toNat).sum : ℕ)) indices entries

/-- The snapshot lists the levels of both sides, and the other views agree with it. -/
def FaithfulViews (δ : Type) (ob : OrderBook) (carried : ℕ → Int64) : Prop :=
  ∃ bids asks : List (Int64 × Int64),
    (ob.buildSnapshot : Json δ) = .object [
      (['b', 'i', 'd', 's'], snapshotSide bids), (['a', 's', 'k', 's'], snapshotSide asks)] ∧
    ob.ListsLevels carried true (bids.map signedEntry) ∧
    ob.ListsLevels carried false (asks.map signedEntry) ∧
    (∀ n : ℤ, 0 ≤ n →
      (ob.getDepth n).bids.map unsignedEntry = (bids.map signedEntry).take n.toNat ∧
      (ob.getDepth n).asks.map unsignedEntry = (asks.map signedEntry).take n.toNat) ∧
    ob.bestBid.map unsignedEntry = (bids.map signedEntry).head? ∧
    ob.bestAsk.map unsignedEntry = (asks.map signedEntry).head?

variable {ob : OrderBook} {carried : ℕ → Int64} {b : Bool}

theorem empty_level_iff (i : ℕ) : (ob.level b i).empty = true ↔ ob.queue b i = [] :=
  List.isEmpty_iff

theorem bidTurns_eq (hlevels : ob.config.numLevels < 2 ^ 31) :
    ob.bidTurns = ob.config.numLevels := by
  have hexact : (ob.config.numLevels : ℤ).bmod (2 ^ 32) = ob.config.numLevels := by
    refine Int.bmod_eq_of_le ?_ ?_
    · omega
    · omega
  unfold bidTurns
  rw [hexact]
  exact Int.toNat_natCast _

theorem mem_scan (hlevels : ob.config.numLevels < 2 ^ 31) (i : ℕ) :
    i ∈ ob.scan b ↔ i < ob.config.numLevels := by
  cases b with
  | false => exact List.mem_range
  | true =>
    rw [scan, List.mem_reverse, List.mem_range, bidTurns_eq hlevels]

/-- Scanning goes from the best price on. -/
theorem scan_pairwise : (ob.scan b).Pairwise fun i j => if b then j < i else i < j := by
  cases b with
  | false => exact List.pairwise_lt_range
  | true => exact List.pairwise_reverse.mpr List.pairwise_lt_range

theorem scan_nodup : (ob.scan b).Nodup := by
  cases b with
  | false => exact List.nodup_range
  | true => exact List.nodup_reverse.mpr List.nodup_range

theorem entryAt_eq_some_iff {i : ℕ} {e : Int64 × UInt64} : ob.entryAt b i = some e ↔
    ob.queue b i ≠ [] ∧ e = (ob.bidPrice i, (ob.level b i).totalSize) := by
  unfold entryAt
  by_cases h : ob.queue b i = []
  · simp [(empty_level_iff i).mpr h, h]
  · have hne : ¬ (ob.level b i).empty = true := fun hempty => h ((empty_level_iff i).mp hempty)
    cases b <;> simp [hne, h, askPrice_eq_bidPrice, eq_comm]

theorem exists_of_forall₂ {α β : Type} {R : α → β → Prop} {l : List α} {l' : List β}
    (h : List.Forall₂ R l l') {x : α} (hx : x ∈ l) : ∃ y ∈ l', R x y := by
  induction h with
  | nil => cases hx
  | cons hR _ ih =>
    rcases List.mem_cons.mp hx with rfl | hx
    · exact ⟨_, List.mem_cons_self .., hR⟩
    · obtain ⟨y, hy, hRy⟩ := ih hx
      exact ⟨y, List.mem_cons_of_mem _ hy, hRy⟩

theorem forall₂_filter_filterMap {α β : Type} {p : α → Bool} {f : α → Option β}
    {R : α → β → Prop} (hf : ∀ x, p x = true → ∃ y, f x = some y ∧ R x y)
    (hp : ∀ x, p x = false → f x = none) (l : List α) :
    List.Forall₂ R (l.filter p) (l.filterMap f) := by
  induction l with
  | nil => exact List.Forall₂.nil
  | cons x l ih =>
    cases hx : p x with
    | false => simpa [hx, hp x hx] using ih
    | true =>
      obtain ⟨y, hy, hR⟩ := hf x hx
      simpa [hx, hy] using List.Forall₂.cons hR ih

/-- Where the totals fit, the entries list the levels. -/
theorem listsLevels_entries (h : ob.WellFormed) (hc : ob.config.Valid)
    (hlevels : ob.config.numLevels < 2 ^ 31)
    (hprice : ∀ b i, ∀ n ∈ ob.queue b i, (carried n.addr).toInt = ob.config.levelPrice i)
    (hsizes : ∀ b i, sizesOf (ob.queue b i) < 2 ^ 63) :
    ob.ListsLevels carried b ((ob.entries b).map unsignedEntry) := by
  have hlt : ∀ b i, ob.queue b i ≠ [] → i < ob.config.numLevels := by
    intro b i hne
    by_contra hge
    refine hne (queue_of_length_le ?_)
    rw [h.length_eq]
    exact Nat.not_lt.mp hge
  refine ⟨List.pairwise_map.mpr ?_, (ob.scan b).filter (fun i => !(ob.queue b i).isEmpty),
    scan_nodup.filter _, fun i => ?_, ?_⟩
  · refine scan_pairwise.filterMap _ fun i j hij e he e' he' => ?_
    obtain ⟨hi, rfl⟩ := entryAt_eq_some_iff.mp he
    obtain ⟨hj, rfl⟩ := entryAt_eq_some_iff.mp he'
    simp only [unsignedEntry, toInt_bidPrice hc (hlt b i hi), toInt_bidPrice hc (hlt b j hj)]
    cases b with
    | false => exact hc.levelPrice_lt hij
    | true => exact hc.levelPrice_lt hij
  · rw [List.mem_filter, mem_scan hlevels]
    constructor
    · intro hi hnil
      simp [hnil] at hi
    · intro hne
      exact ⟨hlt b i hne, by simpa using hne⟩
  · rw [entries, List.map_filterMap]
    refine forall₂_filter_filterMap (fun i hi => ?_) (fun i hi => ?_) _
    · have hne : ob.queue b i ≠ [] := by simpa using hi
      refine ⟨_, by rw [entryAt_eq_some_iff.mpr ⟨hne, rfl⟩]; rfl, fun n hn => ?_, ?_⟩
      · simp only [unsignedEntry]
        rw [hprice b i n hn, toInt_bidPrice hc (hlt b i hne)]
      · have hfit := hsizes b i
        simp only [unsignedEntry]
        rw [h.total_toNat, Nat.mod_eq_of_lt (by omega)]
        rfl
    · have hnil : ob.queue b i = [] := by simpa using hi
      have hempty := (empty_level_iff i).mpr hnil
      simp [entryAt, hempty]

/-- The entries as the snapshot stores them. -/
def signedEntries (ob : OrderBook) (b : Bool) : List (Int64 × Int64) :=
  (ob.entries b).map fun e => (e.1, e.2.toInt64)

theorem buildSnapshot_eq_signed : (ob.buildSnapshot : Json δ) = .object [
    (['b', 'i', 'd', 's'], snapshotSide (ob.signedEntries true)),
    (['a', 's', 'k', 's'], snapshotSide (ob.signedEntries false))] := by
  have hside : ∀ es : List (Int64 × UInt64), (sideJson es : Json δ) =
      snapshotSide (es.map fun e => (e.1, e.2.toInt64)) := by
    intro es
    cases es with
    | nil => rfl
    | cons e es => simp [sideJson, snapshotSide, levelJson, JsonValue.ofUInt64]
  rw [buildSnapshot_eq, hside, hside]
  rfl

theorem signedEntries_eq (h : ob.WellFormed) (hsizes : ∀ b i, sizesOf (ob.queue b i) < 2 ^ 63) :
    (ob.signedEntries b).map signedEntry = (ob.entries b).map unsignedEntry := by
  rw [signedEntries, List.map_map]
  refine List.map_congr_left fun e he => ?_
  obtain ⟨i, _, hentry⟩ := List.mem_filterMap.mp he
  obtain ⟨_, rfl⟩ := entryAt_eq_some_iff.mp hentry
  have hfit := hsizes b i
  have htotal : (ob.level b i).totalSize.toNat < 2 ^ 63 := by
    rw [h.total_toNat]
    omega
  have hsigned : (ob.level b i).totalSize.toInt64.toInt = (ob.level b i).totalSize.toNat :=
    Int64Arith.toInt_toInt64_of_lt htotal
  simp only [Function.comp_apply, signedEntry, unsignedEntry, hsigned]

/-- The views are faithful exactly when no total overflows a signed number. -/
theorem faithfulViews_iff (h : ob.WellFormed) (hc : ob.config.Valid)
    (hlevels : ob.config.numLevels < 2 ^ 31)
    (hprice : ∀ b i, ∀ n ∈ ob.queue b i, (carried n.addr).toInt = ob.config.levelPrice i) :
    FaithfulViews δ ob carried ↔
      ∀ b i, ((ob.queue b i).map fun n => n.val.size.toNat).sum < 2 ^ 63 := by
  constructor
  · intro hfaithful b i
    obtain ⟨bids, asks, _, hbids, hasks, _⟩ := hfaithful
    obtain ⟨es, hlists⟩ : ∃ es : List (Int64 × Int64),
        ob.ListsLevels carried b (es.map signedEntry) := by
      cases b with
      | false => exact ⟨asks, hasks⟩
      | true => exact ⟨bids, hbids⟩
    obtain ⟨indices, _, hmem, hall⟩ := hlists.levels
    by_cases hnil : ob.queue b i = []
    · simp [hnil]
    · obtain ⟨e, he, _, hsum⟩ := exists_of_forall₂ hall ((hmem i).mpr hnil)
      obtain ⟨signed, _, rfl⟩ := List.mem_map.mp he
      have hbound := signed.2.toInt_lt
      simp only [signedEntry] at hsum
      omega
  · intro hsizes
    refine ⟨ob.signedEntries true, ob.signedEntries false, buildSnapshot_eq_signed, ?_⟩
    simp only [signedEntries_eq h hsizes]
    refine ⟨listsLevels_entries h hc hlevels hprice hsizes,
      listsLevels_entries h hc hlevels hprice hsizes, fun n _ => ?_, ?_, ?_⟩
    · rw [getDepth_bids, getDepth_asks, List.map_take, List.map_take]
      exact ⟨rfl, rfl⟩
    · rw [bestBid_eq, List.head?_map]
    · rw [bestAsk_eq, List.head?_map]

end Views

section Reachable

variable {priceMin priceMax tick : Int64} {ob₀ : OrderBook} {msgs : List MboMsg}

theorem consistent_run (hnew : new priceMin priceMax tick = some ob₀) (ht : 0 < tick)
    (hp : priceMin ≤ priceMax)
    (hmsgs : ∀ mbo ∈ msgs, PriceInRange ob₀.config mbo ∧ PriceOnGrid ob₀.config mbo) :
    ∃ s, Runs.run Tracked.step ⟨ob₀, fun _ => 0⟩ msgs = .ok s ∧ s.Consistent ob₀.config := by
  have hc := valid_new hnew ht hp
  have hstart : Tracked.Consistent ob₀.config ⟨ob₀, fun _ => 0⟩ := by
    refine ⟨bookOf_new hnew, fun b i n hn => ?_⟩
    simp [queue_new hnew] at hn
  exact run_total (fun s mbo hs hm => hs.step hc hm.1 hm.2) hstart hmsgs

/-- In every reachable state the views are faithful exactly when the sizes resting at
each level sum to less than 2^63. -/
theorem run_faithfulViews_iff (δ : Type) (hnew : new priceMin priceMax tick = some ob₀)
    (ht : 0 < tick) (hp : priceMin ≤ priceMax) (hlevels : ob₀.config.numLevels < 2 ^ 31)
    (hmsgs : ∀ mbo ∈ msgs, PriceInRange ob₀.config mbo ∧ PriceOnGrid ob₀.config mbo) :
    ∃ s, Runs.run Tracked.step ⟨ob₀, fun _ => 0⟩ msgs = .ok s ∧ ob₀.run msgs = .ok s.book ∧
      (FaithfulViews δ s.book s.carried ↔
        ∀ b i, ((s.book.queue b i).map fun n => n.val.size.toNat).sum < 2 ^ 63) := by
  obtain ⟨s, hrun, ⟨hwf, hconfig⟩, hprice⟩ := consistent_run hnew ht hp hmsgs
  refine ⟨s, hrun, Tracked.run_book hrun, ?_⟩
  rw [← hconfig] at hlevels hprice
  have hc : s.book.config.Valid := by
    rw [hconfig]
    exact valid_new hnew ht hp
  exact faithfulViews_iff hwf hc hlevels hprice

theorem run_faithfulViews_iff_reusedId : ∃ s,
    Runs.run Tracked.step ⟨threeLevels, fun _ => 0⟩ reusedId = .ok s ∧
      threeLevels.run reusedId = .ok s.book ∧ (FaithfulViews Empty s.book s.carried ↔
        ∀ b i, ((s.book.queue b i).map fun n => n.val.size.toNat).sum < 2 ^ 63) :=
  run_faithfulViews_iff Empty new_threeLevels (by decide) (by decide) (by decide) (by decide)

/-- What a run of Adds puts at a level adds up there. -/
theorem sizesOf_queue_adds {ob ob' : OrderBook} (b : Bool) (i : ℕ) (h : ob.WellFormed)
    (hmsgs : ∀ mbo ∈ msgs, mbo.Sided ∧ mbo.action = 'A') (hrun : ob.run msgs = .ok ob') :
    sizesOf (ob'.queue b i) = sizesOf (ob.queue b i) + ((msgs.filter fun mbo =>
      mbo.isBid = b ∧ ob.config.priceToIndex mbo.price = i).map fun mbo => mbo.size.toNat).sum := by
  induction msgs generalizing ob with
  | nil =>
    cases hrun
    rfl
  | cons mbo msgs ih =>
    obtain ⟨t, hok, hrest⟩ := run_cons_ok hrun
    obtain ⟨hs, ha⟩ := hmsgs mbo (List.mem_cons_self ..)
    have htail := ih (h.step hok) (fun m hm => hmsgs m (List.mem_cons_of_mem _ hm)) hrest
    rw [h.config_step hok] at htail
    obtain ⟨hindexed, rfl⟩ := h.step_ok_iff.mp hok
    have heffect : ob.effect mbo = .place := effect_add hs ha
    have hi : ob.msgIndex mbo < ob.config.numLevels := hindexed (by rw [heffect]; trivial)
    have hqueue : (ob.place mbo mbo.isBid (ob.msgIndex mbo)).queue b i = _ :=
      h.queue_place hi b i
    rw [heffect, perform, hqueue] at htail
    unfold msgIndex at htail
    by_cases hlevel : b = mbo.isBid ∧ i = ob.config.priceToIndex mbo.price
    · obtain ⟨rfl, rfl⟩ := hlevel
      simp only [and_self, if_true, sizesOf_pushBack] at htail
      simp only [List.filter_cons, and_self, decide_true, if_true, List.map_cons, List.sum_cons]
      omega
    · have hother : ¬ (mbo.isBid = b ∧ ob.config.priceToIndex mbo.price = i) :=
        fun heq => hlevel ⟨heq.1.symm, heq.2.symm⟩
      simp only [if_neg hlevel] at htail
      simp only [List.filter_cons, hother, decide_false, Bool.false_eq_true, if_false]
      exact htail

/-- Bids of the largest size at one price. -/
def largeBids (n : ℕ) : List MboMsg :=
  (List.range n).map fun k => ⟨UInt64.ofNat k, 100, 4294967295, 'A', 'B'⟩

theorem not_faithfulViews_of_largeBids {n : ℕ} (hn : 2 ^ 63 ≤ n * 4294967295) : ∃ s,
    Runs.run Tracked.step ⟨threeLevels, fun _ => 0⟩ (largeBids n) = .ok s ∧
      ¬ FaithfulViews Empty s.book s.carried := by
  have hshape : ∀ mbo ∈ largeBids n, mbo.price = 100 ∧ mbo.size = 4294967295 ∧
      mbo.action = 'A' ∧ mbo.side = 'B' := by
    intro mbo hmbo
    obtain ⟨k, _, rfl⟩ := List.mem_map.mp hmbo
    exact ⟨rfl, rfl, rfl, rfl⟩
  have hc : threeLevels.config.Valid := valid_new new_threeLevels (by decide) (by decide)
  have hgrid : ∀ mbo ∈ largeBids n,
      PriceInRange threeLevels.config mbo ∧ PriceOnGrid threeLevels.config mbo := by
    intro mbo hmbo
    obtain ⟨hpx, _⟩ := hshape mbo hmbo
    unfold PriceInRange PriceOnGrid
    rw [hpx]
    exact ⟨fun _ => by decide, fun _ => by decide⟩
  obtain ⟨s, hrun, ⟨hwf, hconfig⟩, hprice⟩ :=
    consistent_run new_threeLevels (by decide) (by decide) hgrid
  refine ⟨s, hrun, fun hfaithful => ?_⟩
  have hsums := (faithfulViews_iff hwf (by rwa [hconfig]) (by rw [hconfig]; decide)
    (by rwa [hconfig])).mp hfaithful true 1
  have hadds := sizesOf_queue_adds true 1 (wellFormed_new new_threeLevels)
    (fun mbo hmbo => by
      obtain ⟨_, _, ha, hside⟩ := hshape mbo hmbo
      rw [MboMsg.Sided, ha, hside]
      decide) (Tracked.run_book hrun)
  have hall : (largeBids n).filter (fun mbo =>
      mbo.isBid = true ∧ threeLevels.config.priceToIndex mbo.price = 1) = largeBids n := by
    refine List.filter_eq_self.mpr fun mbo hmbo => ?_
    obtain ⟨hpx, _, _, hside⟩ := hshape mbo hmbo
    rw [MboMsg.isBid, hpx, hside]
    decide
  have htotal : ((largeBids n).map fun mbo => mbo.size.toNat).sum = n * 4294967295 := by
    rw [largeBids, List.map_map]
    simp [Function.comp_def]
  rw [hall, htotal, queue_new new_threeLevels, sizesOf_nil] at hadds
  have hsame : sizesOf (s.book.queue true 1) =
      ((s.book.queue true 1).map fun n => n.val.size.toNat).sum := rfl
  omega

/-- A level that 2^31 + 1 bids of the largest size share is shown with a negative size. -/
theorem not_faithfulViews_deep_level : ∃ s,
    Runs.run Tracked.step ⟨threeLevels, fun _ => 0⟩ (largeBids (2 ^ 31 + 1)) = .ok s ∧
      ¬ FaithfulViews Empty s.book s.carried :=
  not_faithfulViews_of_largeBids (by decide)

end Reachable

end OrderBookServer.OrderBook
