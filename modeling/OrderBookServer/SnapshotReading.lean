import OrderBookServer.History
import OrderBookServer.RoundTrip
import OrderBookServer.Snapshot

/-!
A snapshot from the book to its reader. The text of the snapshot is read back as what was written,
in whatever order the members of its objects stand, and what it says of a side is the reference
book: each price at which orders rest, best price first, with the sum of their sizes.
-/
namespace OrderBookServer

open NodeList Runs

namespace ReferenceBook

/-- The sizes that rest at a price. -/
def sizeAt (book : ReferenceBook) (b : Bool) (px : ℤ) : ℕ :=
  ((book.ordersAt b px).map fun o => o.size.toNat).sum

/-- The entries are the prices at which orders rest, best price first, with their sizes. -/
structure Lists (book : ReferenceBook) (b : Bool) (es : List (ℤ × ℤ)) : Prop where
  sorted : es.Pairwise fun e e' => if b then e'.1 < e.1 else e.1 < e'.1
  entries : ∀ e, e ∈ es ↔ book.ordersAt b e.1 ≠ [] ∧ e.2 = book.sizeAt b e.1

end ReferenceBook

namespace Tree

variable {δ : Type}

/-- An object with a price and a size. -/
def level : Tree δ → Option (ℤ × ℤ)
  | .object members =>
    match members ['p', 'r', 'i', 'c', 'e'], members ['s', 'i', 'z', 'e'] with
    | some (.scalar (.int64 price)), some (.scalar (.int64 size)) => some (price.toInt, size.toInt)
    | _, _ => none
  | _ => none

/-- One side of a snapshot: a null, or an array of levels. -/
def levels : Tree δ → Option (List (ℤ × ℤ))
  | .scalar .null => some []
  | .array items => items.mapM level
  | _ => none

/-- What a reader of a snapshot takes from it for one side. -/
def side (b : Bool) : Tree δ → Option (List (ℤ × ℤ))
  | .object members =>
    (members (if b then ['b', 'i', 'd', 's'] else ['a', 's', 'k', 's'])).bind levels
  | _ => none

end Tree

namespace OrderBook

section Texts

variable {δ : Type} (ob : OrderBook)

theorem denoteItems_snapshotSide (es : List (Int64 × Int64)) :
    ((Json.denoteItems (es.map fun e => Json.object [
      (['p', 'r', 'i', 'c', 'e'], (Json.ofValue (.int64 e.1) : Json δ)),
      (['s', 'i', 'z', 'e'], .ofValue (.int64 e.2))])).mapM Tree.level) =
        some (es.map signedEntry) := by
  induction es with
  | nil => rfl
  | cons e es ih =>
    rw [List.map_cons, Json.denoteItems, List.mapM_cons, ih]
    rfl

theorem levels_snapshotSide (es : List (Int64 × Int64)) :
    (snapshotSide es : Json δ).denote.levels = some (es.map signedEntry) := by
  cases es with
  | nil => rfl
  | cons e es => exact denoteItems_snapshotSide (e :: es)

theorem side_buildSnapshot (b : Bool) :
    (ob.buildSnapshot : Json δ).denote.side b = some ((ob.signedEntries b).map signedEntry) := by
  rw [buildSnapshot_eq_signed, Json.denote, Tree.side, Json.denoteMembers]
  cases b with
  | false =>
    have hne : (['b', 'i', 'd', 's'] : Text) ≠ ['a', 's', 'k', 's'] := by simp
    rw [if_neg Bool.false_ne_true, if_neg hne, Json.denoteMembers, if_pos rfl, Option.bind_some]
    exact levels_snapshotSide _
  | true =>
    rw [if_pos rfl, if_pos rfl, Option.bind_some]
    exact levels_snapshotSide _

theorem printable_snapshotSide (es : List (Int64 × Int64)) :
    (snapshotSide es : Json δ).Printable := by
  have hitems : ∀ es : List (Int64 × Int64), Json.PrintableItems (es.map fun e => Json.object [
      (['p', 'r', 'i', 'c', 'e'], (Json.ofValue (.int64 e.1) : Json δ)),
      (['s', 'i', 'z', 'e'], .ofValue (.int64 e.2))]) := by
    intro es
    induction es with
    | nil => trivial
    | cons e es ih =>
      refine ⟨⟨List.cons_ne_nil _ _, by simp, ⟨by decide, by decide⟩, trivial,
        ⟨by decide, by decide⟩, trivial, trivial⟩, ih⟩
  cases es with
  | nil => trivial
  | cons e es => exact ⟨List.cons_ne_nil _ _, hitems (e :: es)⟩

theorem printable_sides (bids asks : List (Int64 × Int64)) : (Json.object [
    (['b', 'i', 'd', 's'], (snapshotSide bids : Json δ)),
    (['a', 's', 'k', 's'], snapshotSide asks)]).Printable :=
  ⟨List.cons_ne_nil _ _, by simp, ⟨by decide, by decide⟩, printable_snapshotSide bids,
    ⟨by decide, by decide⟩, printable_snapshotSide asks, trivial⟩

theorem printable_buildSnapshot : (ob.buildSnapshot : Json δ).Printable := by
  rw [buildSnapshot_eq_signed]
  exact printable_sides _ _

end Texts

section Levels

variable {c : Config} {ob : OrderBook} {book : ReferenceBook} {b : Bool} {i : ℕ}

theorem Refines.sizesOf_eq (hR : Refines c ob book) (hi : i < c.numLevels) :
    sizesOf (ob.queue b i) = book.sizeAt b (c.levelPrice i) := by
  rw [ReferenceBook.sizeAt, ← hR.queues b i hi, Nodes.vals, List.map_map]
  rfl

theorem Refines.queue_eq_nil_iff (hR : Refines c ob book) (hi : i < c.numLevels) :
    ob.queue b i = [] ↔ book.ordersAt b (c.levelPrice i) = [] := by
  rw [← hR.queues b i hi, Nodes.vals, List.map_eq_nil_iff]

theorem Refines.lt_numLevels (hR : Refines c ob book) (hne : ob.queue b i ≠ []) :
    i < c.numLevels := by
  by_contra hge
  refine hne (queue_of_length_le ?_)
  rw [hR.bookOf.1.length_eq, hR.config_eq]
  exact Nat.not_lt.mp hge

theorem Refines.sizesOf_lt (hR : Refines c ob book)
    (hfits : ∀ b px, book.sizeAt b px < 2 ^ 63) (b : Bool) (i : ℕ) :
    sizesOf (ob.queue b i) < 2 ^ 63 := by
  by_cases hnil : ob.queue b i = []
  · rw [hnil, sizesOf_nil]
    decide
  · rw [hR.sizesOf_eq (hR.lt_numLevels hnil)]
    exact hfits _ _

/-- The entries of a book are the levels of the reference book. -/
theorem Refines.mem_entries (hR : Refines c ob book) (hc : c.Valid) (hs : book.Standing c)
    (hlevels : c.numLevels < 2 ^ 31) (hfits : ∀ b px, book.sizeAt b px < 2 ^ 63) (e : ℤ × ℤ) :
    e ∈ (ob.entries b).map unsignedEntry ↔
      book.ordersAt b e.1 ≠ [] ∧ e.2 = book.sizeAt b e.1 := by
  have hwf := hR.bookOf.1
  have hconfig := hR.config_eq
  have hentry : ∀ i < c.numLevels,
      unsignedEntry (ob.bidPrice i, (ob.level b i).totalSize) =
        (c.levelPrice i, (book.sizeAt b (c.levelPrice i) : ℤ)) := by
    intro i hi
    have hfit := hR.sizesOf_lt hfits b i
    rw [unsignedEntry, hwf.total_toNat, Nat.mod_eq_of_lt (by omega), hR.sizesOf_eq hi, ← hconfig,
      toInt_bidPrice (hconfig ▸ hc) (hconfig ▸ hi)]
  constructor
  · intro he
    obtain ⟨u, hu, rfl⟩ := List.mem_map.mp he
    obtain ⟨i, _, hat⟩ := List.mem_filterMap.mp hu
    obtain ⟨hne, rfl⟩ := entryAt_eq_some_iff.mp hat
    have hi := hR.lt_numLevels hne
    rw [hentry i hi]
    exact ⟨fun hnil => hne ((hR.queue_eq_nil_iff hi).mpr hnil), rfl⟩
  · rintro ⟨hne, hsize⟩
    obtain ⟨i, hi, hprice⟩ : ∃ i < c.numLevels, c.levelPrice i = e.1 := by
      by_contra hnone
      push Not at hnone
      exact hne (hs.ordersAt_eq_nil hc hnone)
    have hqueue : ob.queue b i ≠ [] := by
      rw [ne_eq, hR.queue_eq_nil_iff hi, hprice]
      exact hne
    refine List.mem_map.mpr ⟨(ob.bidPrice i, (ob.level b i).totalSize), ?_, ?_⟩
    · refine List.mem_filterMap.mpr ⟨i, (mem_scan ?_ i).mpr ?_, ?_⟩
      · rwa [hconfig]
      · rwa [hconfig]
      · exact entryAt_eq_some_iff.mpr ⟨hqueue, rfl⟩
    · rw [hentry i hi, hprice, ← hsize]

theorem Refines.lists (hR : Refines c ob book) (hc : c.Valid) (hs : book.Standing c)
    (hlevels : c.numLevels < 2 ^ 31) (hfits : ∀ b px, book.sizeAt b px < 2 ^ 63) (b : Bool) :
    book.Lists b ((ob.signedEntries b).map signedEntry) := by
  have hconfig := hR.config_eq
  rw [signedEntries_eq hR.bookOf.1 (hR.sizesOf_lt hfits)]
  refine ⟨List.pairwise_map.mpr ?_, hR.mem_entries hc hs hlevels hfits⟩
  refine scan_pairwise.filterMap _ fun i j hij e he e' he' => ?_
  obtain ⟨hi, rfl⟩ := entryAt_eq_some_iff.mp he
  obtain ⟨hj, rfl⟩ := entryAt_eq_some_iff.mp he'
  have hprice : ∀ k < c.numLevels, (ob.bidPrice k).toInt = c.levelPrice k := by
    intro k hk
    rw [← hconfig]
    exact toInt_bidPrice (hconfig ▸ hc) (hconfig ▸ hk)
  simp only [unsignedEntry, hprice i (hR.lt_numLevels hi), hprice j (hR.lt_numLevels hj)]
  cases b with
  | false => exact hc.levelPrice_lt hij
  | true => exact hc.levelPrice_lt hij

/-- A signed number holds less than 2^63, so a snapshot that lists the book has only such totals. -/
theorem sizeAt_lt_of_lists {es : List (Int64 × Int64)} (h : book.Lists b (es.map signedEntry))
    (px : ℤ) : book.sizeAt b px < 2 ^ 63 := by
  by_cases hnil : book.ordersAt b px = []
  · rw [ReferenceBook.sizeAt, hnil, List.map_nil, List.sum_nil]
    decide
  · have hmem := (h.entries (px, book.sizeAt b px)).mpr ⟨hnil, rfl⟩
    obtain ⟨e, _, heq⟩ := List.mem_map.mp hmem
    have hbound := e.2.toInt_lt
    have hsize : e.2.toInt = book.sizeAt b px := congrArg Prod.snd heq
    omega

end Levels

section Reading

variable {priceMin priceMax tick : Int64} {ob₀ : OrderBook}

open JsonParse in
/-- After any admitted feed every text of the snapshot is read without looking behind its end, and
what is read lists the two sides of the reference book exactly when no price holds 2^63 or more. -/
theorem parse_buildSnapshot {δ : Type} [CharConv δ]
    (hnew : new priceMin priceMax tick = some ob₀) (ht : 0 < tick) (hp : priceMin ≤ priceMax)
    (hlevels : ob₀.config.numLevels < 2 ^ 31) (msgs : List MboMsg)
    (hmsgs : Feeds ReferenceBook.apply (ReferenceBook.Admits ob₀.config) [] msgs) :
    ∃ ob, ob₀.run msgs = .ok ob ∧
      (ob.buildSnapshot : Json δ).IsTextOf (ob.buildSnapshot : Json δ).getStringValue ∧
      ∀ input : Input, (ob.buildSnapshot : Json δ).IsTextOf input.text → ∃ res : Json δ,
        (∀ fuel, input.size ≤ fuel → ∃ s, parse input fuel initial = .ok res s ∧
          s.reach ≤ input.size) ∧
        ∃ bids asks, res.denote.side true = some bids ∧ res.denote.side false = some asks ∧
          ((msgs.foldl ReferenceBook.apply []).Lists true bids ∧
            (msgs.foldl ReferenceBook.apply []).Lists false asks ↔
              ∀ b px, (msgs.foldl ReferenceBook.apply []).sizeAt b px < 2 ^ 63) := by
  have hc := valid_new hnew ht hp
  obtain ⟨ob, hrun, hR⟩ := (refines_new hnew).run hc hmsgs
  have hs := ReferenceBook.standing_nil.feeds hmsgs
  refine ⟨ob, hrun, Json.isTextOf_getStringValue (printable_buildSnapshot ob) rfl,
    fun input htext => ?_⟩
  obtain ⟨order, horder, hsame, hspread⟩ := htext
  have hdenote : order.reread.denote = (ob.buildSnapshot : Json δ).denote :=
    (Json.denote_reread order).trans hsame
  refine ⟨order.reread, fun fuel hfuel => ?_, (ob.signedEntries true).map signedEntry,
    (ob.signedEntries false).map signedEntry, ?_, ?_, ?_⟩
  · have hreads := reads_parse horder (isContainer_of_denote hsame trivial) hspread hfuel
    obtain ⟨s, hok, _, hreach⟩ := hreads initial rfl
    have hstart : initial.reach = 0 := rfl
    exact ⟨s, hok, by omega⟩
  · rw [hdenote, side_buildSnapshot]
  · rw [hdenote, side_buildSnapshot]
  · constructor
    · rintro ⟨hbids, hasks⟩ b px
      cases b with
      | false => exact sizeAt_lt_of_lists hasks px
      | true => exact sizeAt_lt_of_lists hbids px
    · intro hfits
      exact ⟨hR.lists hc hs hlevels hfits true, hR.lists hc hs hlevels hfits false⟩

open JsonParse in
/-- The text that the writer makes of the book after `priorities`. -/
theorem parse_buildSnapshot_priorities : ∃ ob, threeLevels.run priorities = .ok ob ∧
    ∃ (res : Json Empty) (s : ParseState) (bids asks : List (ℤ × ℤ)),
      parse ⟨(ob.buildSnapshot : Json Empty).getStringValue, fun _ => '}'⟩
        (ob.buildSnapshot : Json Empty).getStringValue.length initial = .ok res s ∧
      res.denote.side true = some bids ∧ res.denote.side false = some asks := by
  obtain ⟨ob, hrun, hwritten, hread⟩ :=
    parse_buildSnapshot (δ := Empty) new_threeLevels (by decide) (by decide) (by decide)
      priorities (by decide)
  obtain ⟨res, hparse, bids, asks, hbids, hasks, _⟩ :=
    hread ⟨(ob.buildSnapshot : Json Empty).getStringValue, fun _ => '}'⟩ hwritten
  obtain ⟨s, hok, _⟩ := hparse _ (Nat.le_refl _)
  exact ⟨ob, hrun, res, s, bids, asks, hok, hbids, hasks⟩

end Reading

end OrderBook

end OrderBookServer
