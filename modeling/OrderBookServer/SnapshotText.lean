import Mathlib.Algebra.Order.BigOperators.Group.List
import OrderBookServer.Snapshot

/-!
The text of a snapshot against the stack buffer it is written to. Its length is a sum
over the non-empty levels of both sides: the punctuation and the keys, and the digits
of the price and of the total. The writer has no bounds check, so a snapshot fits
exactly as long as that sum does.
-/
namespace OrderBookServer

namespace Json

variable {δ : Type} [CharConv δ]

/-- After the first item each item costs its own text and a comma. -/
theorem length_writeItems_false (items : List (Json δ)) :
    (writeItems false items).flatten.length =
      (items.map fun item => item.getStringValue.length + 1).sum := by
  induction items with
  | nil => rfl
  | cons item items ih =>
    simp only [writeItems, Bool.false_eq_true, if_false, List.flatten_append, List.length_append,
      List.flatten_cons, List.flatten_nil, List.append_nil, List.length_cons, List.length_nil, ih,
      List.map_cons, List.sum_cons, getStringValue]
    omega

theorem length_array (item : Json δ) (items : List (Json δ)) :
    (getStringValue (.array (item :: items))).length =
      1 + ((item :: items).map fun item => item.getStringValue.length + 1).sum := by
  simp only [getStringValue, writeStringValue, writeItems, if_true, List.nil_append,
    List.flatten_append, List.length_append, length_writeItems_false, List.flatten_cons,
    List.flatten_nil, List.append_nil, List.length_cons, List.length_nil, List.map_cons,
    List.sum_cons]
  omega

end Json

namespace OrderBook

open NodeList Runs

variable {δ : Type} [CharConv δ]

/-- The characters of one level: price and total in decimal, the total as it is stored. -/
def entryLength (e : Int64 × UInt64) : ℕ :=
  18 + (Decimal.toChars e.1.toInt).length + (Decimal.toChars e.2.toInt64.toInt).length

/-- The characters of one side: a null, or the levels with brackets and commas. -/
def sideLength (es : List (Int64 × UInt64)) : ℕ :=
  if es = [] then 4 else 1 + (es.map fun e => entryLength e + 1).sum

def snapshotLength (ob : OrderBook) : ℕ :=
  17 + sideLength (ob.entries true) + sideLength (ob.entries false)

theorem text_levelJson (price : Int64) (totalSize : UInt64) :
    (levelJson price totalSize : Json δ).getStringValue =
      ['{', '"', 'p', 'r', 'i', 'c', 'e', '"', ':'] ++ Decimal.toChars price.toInt ++
      [',', '"', 's', 'i', 'z', 'e', '"', ':'] ++ Decimal.toChars totalSize.toInt64.toInt ++
      ['}'] := by
  simp [Json.getStringValue, levelJson, Json.writeStringValue, Json.writeMembers, Json.ofValue,
    JsonValue.ofUInt64, JsonValue.writeStringValue]

theorem length_levelJson (price : Int64) (totalSize : UInt64) :
    (levelJson price totalSize : Json δ).getStringValue.length =
      entryLength (price, totalSize) := by
  simp only [text_levelJson, entryLength, List.length_append, List.length_cons, List.length_nil]
  omega

theorem length_sideJson (es : List (Int64 × UInt64)) :
    (sideJson es : Json δ).getStringValue.length = sideLength es := by
  cases es with
  | nil => rfl
  | cons e es =>
    simp only [sideJson, List.map_cons, Json.length_array, List.sum_cons, List.map_map,
      Function.comp_def, length_levelJson, sideLength, reduceCtorEq, if_false]

theorem text_snapshot (bids asks : Json δ) :
    (Json.object [(['b', 'i', 'd', 's'], bids), (['a', 's', 'k', 's'], asks)]).getStringValue =
      ['{', '"', 'b', 'i', 'd', 's', '"', ':'] ++ bids.getStringValue ++
      [',', '"', 'a', 's', 'k', 's', '"', ':'] ++ asks.getStringValue ++ ['}'] := by
  simp [Json.getStringValue, Json.writeStringValue, Json.writeMembers]

/-- The length of the text that `get_string_value` writes for the snapshot. -/
theorem length_buildSnapshot (ob : OrderBook) :
    (ob.buildSnapshot : Json δ).getStringValue.length = ob.snapshotLength := by
  have hbids := length_sideJson (δ := δ) (ob.entries true)
  have hasks := length_sideJson (δ := δ) (ob.entries false)
  rw [buildSnapshot_eq, text_snapshot, snapshotLength, ← hbids, ← hasks]
  simp only [List.length_append, List.length_cons, List.length_nil]
  omega

/-- The text of the snapshot, and every write of it, stays inside the buffer. -/
def SnapshotFits (δ : Type) [CharConv δ] (ob : OrderBook) : Prop :=
  (ob.buildSnapshot : Json δ).getStringValue.length ≤ stringBufferSize ∧
    Json.WritesInside stringBufferSize 0 (ob.buildSnapshot : Json δ).writeStringValue

theorem snapshotFits_iff (ob : OrderBook) :
    SnapshotFits δ ob ↔ ob.snapshotLength ≤ stringBufferSize := by
  have hlength := length_buildSnapshot (δ := δ) ob
  rw [SnapshotFits, Json.writesInside_iff (Nat.zero_le _), Nat.zero_add,
    ← Json.getStringValue, hlength, and_self]

section Condition

variable {ob : OrderBook} {b : Bool}

/-- The characters of level `i` with its comma: a price and a total of 64 bits in decimal. -/
def levelChars (ob : OrderBook) (b : Bool) (i : ℕ) : ℕ :=
  if ob.queue b i = [] then 0
  else 19 + (Decimal.toChars (ob.config.levelPrice i)).length +
    (Decimal.toChars ((sizesOf (ob.queue b i) : ℤ).bmod (2 ^ 64))).length

/-- The characters of a side: a null where nothing rests. -/
def sideChars (ob : OrderBook) (b : Bool) : ℕ :=
  if ∀ i < ob.config.numLevels, ob.queue b i = [] then 4
  else 1 + ((List.range ob.config.numLevels).map (ob.levelChars b)).sum

def snapshotChars (ob : OrderBook) : ℕ := 17 + ob.sideChars true + ob.sideChars false

theorem sum_map_filterMap {α β : Type} (f : α → Option β) (g : β → ℕ) (l : List α) :
    ((l.filterMap f).map g).sum = (l.map fun x => (f x).elim 0 g).sum := by
  induction l with
  | nil => rfl
  | cons x l ih =>
    cases hx : f x with
    | none => simp [hx, ih]
    | some y => simp [hx, ih]

theorem entryAt_chars (h : ob.WellFormed) (hc : ob.config.Valid) {i : ℕ}
    (hi : i < ob.config.numLevels) :
    ((ob.entryAt b i).elim 0 fun e => entryLength e + 1) = ob.levelChars b i := by
  unfold levelChars
  by_cases hnil : ob.queue b i = []
  · have hempty := (empty_level_iff i).mpr hnil
    simp only [entryAt, hempty, hnil, if_true, Option.elim_none]
  · have hentry := entryAt_eq_some_iff.mpr ⟨hnil, rfl⟩
    have htotal : (ob.level b i).totalSize.toInt64.toInt =
        (sizesOf (ob.queue b i) : ℤ).bmod (2 ^ 64) := by
      rw [h.total_eq, UInt64.toInt64_ofNat', Int64.toInt_ofNat']
      rfl
    rw [hentry, if_neg hnil]
    simp only [Option.elim_some, entryLength, toInt_bidPrice hc hi, htotal]
    omega

theorem sideLength_entries (h : ob.WellFormed) (hc : ob.config.Valid)
    (hlevels : ob.config.numLevels < 2 ^ 31) : sideLength (ob.entries b) = ob.sideChars b := by
  have hlt : ∀ i ∈ ob.scan b, i < ob.config.numLevels := fun i hi => (mem_scan hlevels i).mp hi
  have hnone : ob.entries b = [] ↔ ∀ i < ob.config.numLevels, ob.queue b i = [] := by
    rw [entries, List.filterMap_eq_nil_iff]
    constructor
    · intro hall i hi
      by_contra hne
      have hentry := entryAt_eq_some_iff.mpr ⟨hne, rfl⟩
      rw [hall i ((mem_scan hlevels i).mpr hi)] at hentry
      cases hentry
    · intro hall i hi
      rw [entryAt, if_pos ((empty_level_iff i).mpr (hall i (hlt i hi)))]
  have hsum : ((ob.entries b).map fun e => entryLength e + 1).sum =
      ((ob.scan b).map (ob.levelChars b)).sum := by
    rw [entries, sum_map_filterMap]
    exact congrArg List.sum (List.map_congr_left fun i hi => entryAt_chars h hc (hlt i hi))
  have hscan : ((ob.scan b).map (ob.levelChars b)).sum =
      ((List.range ob.config.numLevels).map (ob.levelChars b)).sum := by
    cases b with
    | false => rfl
    | true => rw [scan, bidTurns_eq hlevels, List.map_reverse, List.sum_reverse]
  simp only [sideLength, sideChars, hnone, hsum, hscan]

/-- Every level that holds an order costs 21 characters at least. -/
theorem le_levelChars {i : ℕ} (hne : ob.queue b i ≠ []) : 21 ≤ ob.levelChars b i := by
  have hprice := List.length_pos_of_ne_nil (Decimal.toChars_ne_nil (x := ob.config.levelPrice i))
  have htotal := List.length_pos_of_ne_nil
    (Decimal.toChars_ne_nil (x := (sizesOf (ob.queue b i) : ℤ).bmod (2 ^ 64)))
  rw [levelChars, if_neg hne]
  omega

theorem le_sideChars {n : ℕ} (hn : n ≤ ob.config.numLevels) (hpos : 0 < n)
    (hne : ∀ i < n, ob.queue b i ≠ []) : 21 * n ≤ ob.sideChars b := by
  have hsub := ((List.range_sublist.mpr hn).map (ob.levelChars b)).sum_le_sum
    fun _ _ => Nat.zero_le _
  have hcost := List.card_nsmul_le_sum ((List.range n).map (ob.levelChars b)) 21 (by
    intro chars hchars
    obtain ⟨i, hi, rfl⟩ := List.mem_map.mp hchars
    exact le_levelChars (hne i (List.mem_range.mp hi)))
  rw [List.length_map, List.length_range, nsmul_eq_mul, Nat.cast_id] at hcost
  have hsome : ¬ ∀ i < ob.config.numLevels, ob.queue b i = [] :=
    fun hall => hne 0 hpos (hall 0 (by omega))
  rw [sideChars, if_neg hsome]
  omega

end Condition

section Production

variable {msgs : List MboMsg}

/-- The book of the production configuration. -/
def productionBook : OrderBook :=
  ⟨⟨20000000, 120000000000, 10000000, 11999⟩, List.replicate 11999 .new,
    List.replicate 11999 .new, ∅, 0⟩

theorem new_productionBook : new 20000000 120000000000 10000000 = some productionBook := by
  have hlevels : Config.levelCount 20000000 120000000000 10000000 = some 11999 := by decide
  rw [new, hlevels]
  rfl

theorem valid_productionBook : productionBook.config.Valid :=
  valid_new new_productionBook (by decide) (by decide)

theorem bookOf_productionBook (hmsgs : ∀ mbo ∈ msgs, PriceInRange productionBook.config mbo) :
    ∃ ob, productionBook.run msgs = .ok ob ∧ BookOf productionBook.config ob :=
  (bookOf_new new_productionBook).run fun mbo hmbo => (hmsgs mbo hmbo).indexes valid_productionBook

theorem snapshotFits_iff_chars {ob : OrderBook} (h : BookOf productionBook.config ob) :
    SnapshotFits δ ob ↔ ob.snapshotChars ≤ stringBufferSize := by
  obtain ⟨hwf, hconfig⟩ := h
  have hc : ob.config.Valid := by
    rw [hconfig]
    exact valid_productionBook
  have hlevels : ob.config.numLevels < 2 ^ 31 := by
    rw [hconfig]
    decide
  rw [snapshotFits_iff, snapshotLength, sideLength_entries hwf hc hlevels,
    sideLength_entries hwf hc hlevels, snapshotChars]

/-- In every reachable state of the production book the snapshot fits the buffer exactly
when the prices and the totals of the levels that hold orders are short enough together. -/
theorem run_snapshotFits_iff (δ : Type) [CharConv δ]
    (hmsgs : ∀ mbo ∈ msgs, PriceInRange productionBook.config mbo) :
    ∃ ob, productionBook.run msgs = .ok ob ∧
      (SnapshotFits δ ob ↔ ob.snapshotChars ≤ stringBufferSize) := by
  obtain ⟨ob, hrun, hbook⟩ := bookOf_productionBook hmsgs
  exact ⟨ob, hrun, snapshotFits_iff_chars hbook⟩

theorem run_snapshotFits_iff_twoOrders : ∃ ob,
    productionBook.run [⟨1, 20000000, 5, 'A', 'B'⟩, ⟨2, 30000000, 7, 'A', 'A'⟩] = .ok ob ∧
      (SnapshotFits Empty ob ↔ ob.snapshotChars ≤ stringBufferSize) :=
  run_snapshotFits_iff Empty (by decide)

/-- A bid of one share at each of the `n` lowest levels. -/
def bidLadder (n : ℕ) : List MboMsg :=
  (List.range n).map fun k =>
    ⟨UInt64.ofNat k, Int64.ofNat (20000000 + k * 10000000), 1, 'A', 'B'⟩

theorem ladder_price {k : ℕ} (hk : k < 11999) :
    productionBook.config.InRange (Int64.ofNat (20000000 + k * 10000000)) ∧
      productionBook.config.priceToIndex (Int64.ofNat (20000000 + k * 10000000)) = k := by
  have hprice : (Int64.ofNat (20000000 + k * 10000000)).toInt = 20000000 + k * 10000000 := by
    have hexact := Int64.toInt_ofNat_of_lt (n := 20000000 + k * 10000000) (by omega)
    omega
  have hin : productionBook.config.InRange (Int64.ofNat (20000000 + k * 10000000)) := by
    unfold Config.InRange
    rw [hprice]
    change (20000000 : ℤ) ≤ _ ∧ _ ≤ (120000000000 : ℤ)
    omega
  refine ⟨hin, ?_⟩
  have hindex := valid_productionBook.priceToIndex_eq hin
  rw [hprice] at hindex
  change _ = ((20000000 : ℤ) + k * 10000000 - 20000000) / 10000000 at hindex
  omega

theorem not_snapshotFits_bidLadder {n : ℕ} (hn : n ≤ 11999) (hlong : stringBufferSize < 21 * n) :
    ∃ ob, productionBook.run (bidLadder n) = .ok ob ∧ ¬ SnapshotFits Empty ob := by
  have hshape : ∀ mbo ∈ bidLadder n, mbo.Sided ∧ mbo.action = 'A' ∧
      productionBook.config.InRange mbo.price := by
    intro mbo hmbo
    obtain ⟨k, hk, rfl⟩ := List.mem_map.mp hmbo
    have hlt := List.mem_range.mp hk
    have hadd : 'A' ≠ 'R' := by decide
    exact ⟨⟨hadd, Or.inr rfl⟩, rfl, (ladder_price (by omega)).1⟩
  obtain ⟨ob, hrun, hbook⟩ := bookOf_productionBook fun mbo hmbo _ => (hshape mbo hmbo).2.2
  refine ⟨ob, hrun, fun hfits => ?_⟩
  have hne : ∀ i < n, ob.queue true i ≠ [] := by
    intro i hi hnil
    have hsizes := sizesOf_queue_adds true i (wellFormed_new new_productionBook)
      (fun mbo hmbo => ⟨(hshape mbo hmbo).1, (hshape mbo hmbo).2.1⟩) hrun
    rw [hnil, sizesOf_nil] at hsizes
    have hmem : (1 : ℕ) ∈ ((bidLadder n).filter fun mbo =>
        mbo.isBid = true ∧ productionBook.config.priceToIndex mbo.price = i).map
          fun mbo => mbo.size.toNat := by
      refine List.mem_map.mpr ⟨_, List.mem_filter.mpr
        ⟨List.mem_map.mpr ⟨i, List.mem_range.mpr hi, rfl⟩, ?_⟩, rfl⟩
      have hindex := (ladder_price (show i < 11999 by omega)).2
      simp only [MboMsg.isBid, hindex, and_self, decide_true]
    have hone := List.le_sum_of_mem hmem
    omega
  have hlevels : n ≤ ob.config.numLevels := by
    rw [hbook.2]
    exact hn
  have hpos : 0 < n := by omega
  have hside := le_sideChars hlevels hpos hne
  have hchars := (snapshotFits_iff_chars hbook).mp hfits
  unfold snapshotChars at hchars
  omega

/-- Bids of one share at 5000 of the 11999 levels overrun the buffer. -/
theorem not_snapshotFits_fiveThousandBids :
    ∃ ob, productionBook.run (bidLadder 5000) = .ok ob ∧ ¬ SnapshotFits Empty ob :=
  not_snapshotFits_bidLadder (by decide) (by decide)

end Production

end OrderBook

end OrderBookServer
