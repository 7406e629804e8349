import OrderBookServer.JsonShape
import OrderBookServer.JsonSteps
import OrderBookServer.RoundTrip

/-!
The trees that the reader can return. It takes a string or a key up to the next quote, cuts
a key at its first NUL, and makes a container only when it stores something in it. So it
returns no quote, no key with a NUL and no empty container, whatever the text is, and a
written tree comes back only if it has none of these itself.
-/
namespace OrderBookServer

namespace JsonParse

open Json

variable {δ α β : Type} {input : Input} {p : ℕ}

/-- What the program returns, from any state, meets `P`. -/
def Returns (x : Parser α) (P : α → Prop) : Prop := ∀ s a s', x s = .ok a s' → P a

section Rules

variable {x : Parser α} {f : α → Parser β} {P : α → Prop} {Q : β → Prop}

theorem returns_true (x : Parser α) : Returns x fun _ => True := fun _ _ _ _ => trivial

theorem Returns.pure {a : α} (h : P a) : Returns (pure a) P := by
  intro s a' s' hok
  cases hok
  exact h

theorem Returns.throw (e : Abort) : Returns (throw e : Parser α) P := by
  intro s a s' hok
  cases hok

theorem Returns.bind (hx : Returns x P) (hf : ∀ a, P a → Returns (f a) Q) :
    Returns (x >>= f) Q := by
  intro s b s' hok
  cases hrun : x s with
  | error e s₁ =>
    rw [bind_error hrun] at hok
    cases hok
  | ok a s₁ =>
    rw [bind_ok hrun] at hok
    exact hf a (hx s a s₁ hrun) s₁ b s' hok

/-- A program whose result does not matter. -/
theorem Returns.after (hf : ∀ a, Returns (f a) Q) : Returns (x >>= f) Q :=
  (returns_true x).bind fun a _ => hf a

theorem Returns.ite {c : Prop} [Decidable c] {y : Parser α} (hx : Returns x P)
    (hy : Returns y P) : Returns (if c then x else y) P := by
  by_cases hc : c
  · rw [if_pos hc]
    exact hx
  · rw [if_neg hc]
    exact hy

end Rules

section Tokens

theorem returns_scanChar (stop : Char → Bool) : Returns (scanChar input stop p)
    fun r => ∀ j, p ≤ j → j < r.1 → stop (input.byte j) = false := by
  intro s a s' hok
  obtain ⟨q, exceeded, s₁, hscan, _, _, _, hpassed, _⟩ := scanChar_run input stop p s
  rw [hscan] at hok
  cases hok
  exact hpassed

theorem returns_getSubString {start stop : ℕ} (P : Char → Prop)
    (h : ∀ j, start ≤ j → j < stop → P (input.byte j)) :
    Returns (getSubString input start stop) fun text => ∀ c ∈ text, P c := by
  unfold getSubString
  by_cases hstop : stop ≤ input.size
  · rw [if_pos hstop]
    refine Returns.pure fun c hc => ?_
    obtain ⟨i, hi⟩ := List.mem_iff_getElem?.mp hc
    rw [List.getElem?_take] at hi
    split at hi
    · rename_i hlt
      rw [List.getElem?_drop] at hi
      have hbyte : input.byte (start + i) = c := by simp only [Input.byte, hi]
      rw [← hbyte]
      exact h (start + i) (by omega) (by omega)
    · cases hi
  · rw [if_neg hstop]
    exact Returns.throw _

/-- A string is cut off before the next quote. -/
theorem returns_parseValueString : Returns (parseValueString input p) fun r => '"' ∉ r.1 := by
  unfold parseValueString
  refine (returns_scanChar _).bind fun r hr => ?_
  have hfree : ∀ j, p ≤ j → j < r.1 → input.byte j ≠ '"' := by
    intro j hj hlt heq
    have hstop := hr j hj hlt
    simp [heq] at hstop
  refine (returns_getSubString (fun c => c ≠ '"') hfree).bind fun text htext => Returns.pure ?_
  exact fun hmem => htext '"' hmem rfl

theorem returns_parseKey : Returns (parseKey input p) fun r => '"' ∉ r.1 := by
  unfold parseKey
  refine Returns.after fun r => Returns.after fun c => Returns.ite ?_ ?_
  · exact Returns.pure (by simp)
  · exact returns_parseValueString

end Tokens

section Readers

/-- What the reader can return. -/
def Plain (json : Json δ) : Prop := json.Every quoteFree ∧ json.Every nonEmpty

theorem plain_null : Plain (.null : Json δ) := ⟨.null, .null⟩

theorem plain_ofValue {v : JsonValue δ} (h : ∀ s, v = .string s → '"' ∉ s) :
    Plain (Json.ofValue v) := ⟨.value h, .value trivial⟩

theorem plain_array {items : List (Json δ)} (hne : items ≠ []) (h : ∀ item ∈ items, Plain item) :
    Plain (.array items) :=
  ⟨.array trivial fun item hitem => (h item hitem).1, .array hne fun item hitem => (h item hitem).2⟩

theorem plain_setIndex {res item : Json δ} (hres : Plain res) (hitem : Plain item) (index : ℕ) :
    Plain (res.setIndex index item) := by
  have hmake : Plain (.array (List.replicate index Json.null ++ [item])) := by
    refine plain_array (by simp) fun x hx => ?_
    rcases List.mem_append.mp hx with hnull | hlast
    · rw [List.eq_of_mem_replicate hnull]
      exact plain_null
    · rw [List.mem_singleton.mp hlast]
      exact hitem
  cases res with
  | null => exact hmake
  | value v isStringFormat => exact hmake
  | object members => exact hmake
  | array items =>
    obtain ⟨hquote, hshape⟩ := hres
    cases hquote with
    | array _ hquote =>
      cases hshape with
      | array hne hshape =>
        refine plain_array (fun hnil => hne ?_) fun x hx => ?_
        · have hlength := congrArg List.length hnil
          simp only [List.length_set, List.length_append, List.length_nil] at hlength
          exact List.length_eq_zero_iff.mp (by omega)
        · obtain hx | rfl := List.mem_or_eq_of_mem_set hx
          · rcases List.mem_append.mp hx with hx | hnull
            · exact ⟨hquote x hx, hshape x hx⟩
            · rw [List.eq_of_mem_replicate hnull]
              exact plain_null
          · exact hitem

theorem insertMember_ne_nil (key : Text) (item : Json δ) (members : List (Text × Json δ)) :
    insertMember key item members ≠ [] := by
  cases members with
  | nil => exact List.cons_ne_nil _ _
  | cons first members =>
    rw [insertMember]
    split
    · exact List.cons_ne_nil _ _
    · exact List.cons_ne_nil _ _

theorem plain_object {members : List (Text × Json δ)} (hne : members ≠ [])
    (h : ∀ m ∈ members, ('"' ∉ m.1 ∧ '\x00' ∉ m.1) ∧ Plain m.2) : Plain (.object members) :=
  ⟨.object (fun m hm => (h m hm).1) fun m hm => (h m hm).2.1,
    .object hne fun m hm => (h m hm).2.2⟩

/-- The key that is stored ends before the first NUL of the key that was read. -/
theorem plain_setKey {res item : Json δ} {key : Text} (hres : Plain res) (hkey : '"' ∉ key)
    (hitem : Plain item) : Plain (res.setKey key item) := by
  have hstored : '"' ∉ key.takeWhile (fun c => c ≠ '\x00') ∧
      '\x00' ∉ key.takeWhile (fun c => c ≠ '\x00') := by
    refine ⟨fun hmem => hkey ((List.takeWhile_sublist _).mem hmem), fun hmem => ?_⟩
    have htest := List.mem_takeWhile_imp hmem
    simp at htest
  have hmake : Plain (.object [(key.takeWhile (fun c => c ≠ '\x00'), item)]) := by
    refine plain_object (by simp) fun m hm => ?_
    rw [List.mem_singleton.mp hm]
    exact ⟨hstored, hitem⟩
  cases res with
  | null => exact hmake
  | value v isStringFormat => exact hmake
  | array items => exact hmake
  | object members =>
    obtain ⟨hquote, hshape⟩ := hres
    cases hquote with
    | object hkeys hquote =>
      cases hshape with
      | object hne hshape =>
        refine plain_object (insertMember_ne_nil _ _ _) fun m hm => ?_
        rcases mem_insertMember hm with hold | rfl
        · exact ⟨hkeys m hold, hquote m hold, hshape m hold⟩
        · exact ⟨hstored, hitem⟩

variable [CharConv δ]

theorem returns_parseValueNumber :
    Returns (parseValueNumber input p : Parser (Json δ × ℕ)) fun r => Plain r.1 := by
  unfold parseValueNumber
  refine Returns.after fun r => Returns.after fun text => Returns.ite ?_ ?_
  · cases CharConv.fromChars (δ := δ) text with
    | none => exact Returns.pure plain_null
    | some x =>
      refine Returns.pure (plain_ofValue fun s hs => ?_)
      cases hs
  · cases int64FromChars text with
    | none => exact Returns.pure plain_null
    | some x =>
      refine Returns.pure (plain_ofValue fun s hs => ?_)
      cases hs

/-- A value is plain if the containers in it are. -/
theorem returns_parseValueWith {object array : ℕ → Parser (Json δ × ℕ)}
    (hobject : ∀ p, Returns (object p) fun r => Plain r.1)
    (harray : ∀ p, Returns (array p) fun r => Plain r.1) :
    Returns (parseValueWith input object array p) fun r => Plain r.1 := by
  have hbranch : ∀ start startPos,
      Returns (parseBranch input object array start startPos) fun r => Plain r.1 := by
    intro start startPos
    unfold parseBranch
    refine Returns.after fun c => Returns.ite ?_ (Returns.ite returns_parseValueNumber ?_)
    · refine returns_parseValueString.bind fun r hr => Returns.pure (plain_ofValue fun s hs => ?_)
      cases hs
      exact hr
    · refine Returns.after fun b => ?_
      cases b with
      | some b =>
        cases b with
        | true => exact Returns.pure (plain_ofValue fun s hs => by cases hs)
        | false => exact Returns.pure (plain_ofValue fun s hs => by cases hs)
      | none =>
        refine Returns.after fun b => Returns.ite ?_
          (Returns.ite (hobject _) (Returns.ite (harray _) ?_))
        · exact Returns.pure (plain_ofValue fun s hs => by cases hs)
        · exact Returns.pure plain_null
  have htail : ∀ c start startPos,
      Returns (valueTail input object array c start startPos) fun r => Plain r.1 := by
    intro c start startPos
    unfold valueTail
    refine Returns.after fun s => Returns.ite ?_ (Returns.pure plain_null)
    refine (hbranch _ _).bind fun r hr => Returns.after fun x => Returns.pure hr
  unfold parseValueWith
  refine Returns.after fun r => Returns.ite ?_ ?_
  · exact Returns.after fun c => htail _ _ _
  · exact Returns.after fun c => htail _ _ _

/-- The loops store plain items in a plain container. -/
theorem plain_readers (input : Input) (fuel : ℕ) :
    (∀ (res : Json δ) (p : ℕ), Plain res →
      Returns (parseObject input fuel res p) fun r => Plain r.1) ∧
    (∀ (res : Json δ) (index p : ℕ), Plain res →
      Returns (parseArray input fuel res index p) fun r => Plain r.1) ∧
    ∀ p : ℕ, Returns (parseValue input fuel p : Parser (Json δ × ℕ)) fun r => Plain r.1 := by
  induction fuel with
  | zero =>
    refine ⟨fun res p _ => ?_, fun res index p _ => ?_, fun p => ?_⟩
    · rw [parseObject]
      exact Returns.throw _
    · rw [parseArray]
      exact Returns.throw _
    · rw [parseValue]
      exact Returns.throw _
  | succ fuel ih =>
    obtain ⟨ihObject, ihArray, ihValue⟩ := ih
    refine ⟨fun res p hres => ?_, fun res index p hres => ?_, fun p => ?_⟩
    · rw [parseObject]
      refine Returns.after fun c => Returns.ite (Returns.pure hres) ?_
      refine returns_parseKey.bind fun r hkey => (ihValue _).bind fun value hvalue => ?_
      have hstored := plain_setKey hres hkey hvalue
      refine Returns.after fun exceeded => Returns.ite (Returns.pure hstored) ?_
      exact Returns.after fun x => ihObject _ _ hstored
    · rw [parseArray]
      refine Returns.after fun c => Returns.ite (Returns.pure hres) ?_
      refine Returns.after fun x => (ihValue _).bind fun value hvalue => ?_
      have hstored := plain_setIndex hres hvalue index
      refine Returns.after fun exceeded => Returns.ite (Returns.pure hstored) ?_
      exact Returns.after fun x => ihArray _ _ _ hstored
    · rw [parseValue]
      exact returns_parseValueWith (fun p => ihObject _ p plain_null)
        fun p => ihArray _ _ p plain_null

/-- Whatever the text is, the tree that is returned is plain. -/
theorem plain_parse (fuel : ℕ) : Returns (parse input fuel : Parser (Json δ)) Plain := by
  obtain ⟨hobject, harray, _⟩ := plain_readers (δ := δ) input fuel
  have hnone : Plain (Json.ofValue (.null : JsonValue δ)) :=
    plain_ofValue fun s hs => by cases hs
  have hlast : ∀ r : Json δ × ℕ, Plain r.1 → Returns (finish r) Plain := by
    intro r hr
    exact Returns.after fun s => Returns.ite (Returns.pure hr) (Returns.pure hnone)
  unfold parse
  refine Returns.ite (Returns.pure hnone) (Returns.after fun r => Returns.after fun c => ?_)
  refine Returns.ite ?_ ?_
  · exact (hobject _ _ plain_null).bind hlast
  · exact (harray _ _ _ plain_null).bind hlast

end Readers

section Documents

variable [CharConv δ] {tree : Json δ}

/-- The reader returns the tree, when it is given enough fuel. -/
def ReadsBack (tree : Json δ) (input : Input) : Prop :=
  ∃ fuel res s, parse input fuel initial = .ok res s ∧ res.denote = tree.denote

theorem every_of_readsBack (hw : tree.Every writable) (h : ReadsBack tree input) :
    tree.Every quoteFree ∧ tree.Every nonEmpty := by
  obtain ⟨fuel, res, s, hok, hsame⟩ := h
  obtain ⟨hquote, hshape⟩ := plain_parse fuel initial res s hok
  exact every_of_denote hw hquote hshape hsame

theorem readsBack_of_spread {order : Json δ} (horder : order.Printable) (hroot : tree.IsContainer)
    (hsame : order.denote = tree.denote) (hspread : Spread order.tokens input.text) :
    ReadsBack tree input := by
  have hreads := reads_parse horder (isContainer_of_denote hsame hroot) hspread (Nat.le_refl _)
  obtain ⟨s, hok, _, _⟩ := hreads initial rfl
  exact ⟨input.size, order.reread, s, hok, (denote_reread order).trans hsame⟩

theorem spread_getStringValue (json : Json δ) : Spread json.tokens json.getStringValue := by
  have hspread := spread_flatten json.tokens
  rwa [flatten_tokens] at hspread

/-- A tree whose text fits the array is written, and it comes back exactly when its strings and
keys have no quote, and its keys no NUL. -/
theorem readsBack_getStringValue_iff (hroot : tree.IsContainer) (hw : tree.Every writable)
    (hn : tree.Every nonEmpty) (hfits : tree.FitsBuffer) (beyond : ℕ → Char) :
    ∃ text, tree.getStringValue? = some text ∧
      (ReadsBack tree ⟨text, beyond⟩ ↔ tree.Every quoteFree) := by
  refine ⟨tree.getStringValue, getStringValue?_of_fits hfits, ?_⟩
  constructor
  · intro h
    exact (every_of_readsBack hw h).1
  · intro hq
    exact readsBack_of_spread (printable_of_every hw hq hn) hroot rfl (spread_getStringValue tree)

/-- `push_back` of each item onto a fresh handle. -/
def pushAll (items : List (Json δ)) : Json δ := items.foldl pushBack .null

omit [CharConv δ] in
theorem pushAll_eq {items : List (Json δ)} (hne : items ≠ []) : pushAll items = .array items := by
  have hgrow : ∀ more done : List (Json δ),
      more.foldl pushBack (.array done) = .array (done ++ more) := by
    intro more
    induction more with
    | nil => exact fun done => by rw [List.append_nil]; rfl
    | cons item more ih =>
      intro done
      rw [List.foldl_cons, pushBack, ih, List.append_assoc, List.singleton_append]
  cases items with
  | nil => exact absurd rfl hne
  | cons item items => exact hgrow items [item]

/-- A text of a document, with whitespace and in any order of the members. -/
def WritesOut (doc : Json δ) (text : Text) : Prop :=
  ∃ order : Json δ, order.Every writable ∧ order.denote = doc.denote ∧ Spread order.tokens text

theorem readsBack_document {doc : Json δ} (hroot : doc.IsContainer) (hw : doc.Every writable)
    (hq : doc.Every quoteFree) {text : Text} (htext : WritesOut doc text) (beyond : ℕ → Char) :
    ReadsBack doc ⟨text, beyond⟩ ↔ doc.Every nonEmpty := by
  constructor
  · intro h
    exact (every_of_readsBack hw h).2
  · intro hn
    obtain ⟨order, hworder, hsame, hspread⟩ := htext
    obtain ⟨hqorder, hnorder⟩ := every_of_denote hworder hq hn hsame.symm
    exact readsBack_of_spread (printable_of_every hworder hqorder hnorder) hroot hsame hspread

/-- Pushed items are written as the array of them, unless there are none. -/
theorem readsBack_pushed {items : List (Json δ)} (embed : Json δ → Json δ)
    (hroot : (embed (.array items)).IsContainer) (hw : (embed (.array items)).Every writable)
    (hq : (embed (.array items)).Every quoteFree)
    (hne : (embed (.array items)).Every nonEmpty → items ≠ []) (beyond : ℕ → Char) :
    ReadsBack (embed (.array items)) ⟨(embed (pushAll items)).getStringValue, beyond⟩ ↔
      (embed (.array items)).Every nonEmpty := by
  constructor
  · intro h
    exact (every_of_readsBack hw h).2
  · intro hn
    have hsame := pushAll_eq (hne hn)
    rw [hsame]
    exact readsBack_of_spread (printable_of_every hw hq hn) hroot rfl (spread_getStringValue _)

omit [CharConv δ] in
theorem ne_nil_of_every {items : List (Json δ)} (h : (Json.array items).Every nonEmpty) :
    items ≠ [] := by
  cases h with
  | array hne _ => exact hne

/-- Pushed arrays, as a document or as a member of one, and the containers of any document
come back exactly when none of them is empty. -/
theorem readsBack_iff_nonEmpty (beyond : ℕ → Char) :
    (∀ items : List (Json δ), (Json.array items).Every writable →
      (Json.array items).Every quoteFree →
      (ReadsBack (.array items) ⟨(pushAll items).getStringValue, beyond⟩ ↔
        (Json.array items).Every nonEmpty)) ∧
    (∀ (before after : List (Text × Json δ)) (key : Text) (items : List (Json δ)),
      (Json.object (before ++ (key, .array items) :: after)).Every writable →
      (Json.object (before ++ (key, .array items) :: after)).Every quoteFree →
      (ReadsBack (.object (before ++ (key, .array items) :: after))
          ⟨(Json.object (before ++ (key, pushAll items) :: after)).getStringValue, beyond⟩ ↔
        (Json.object (before ++ (key, .array items) :: after)).Every nonEmpty)) ∧
    ∀ (doc : Json δ) (text : Text), doc.IsContainer → doc.Every writable → doc.Every quoteFree →
      WritesOut doc text → (ReadsBack doc ⟨text, beyond⟩ ↔ doc.Every nonEmpty) := by
  refine ⟨fun items hw hq => ?_, fun before after key items hw hq => ?_,
    fun doc text hroot hw hq htext => readsBack_document hroot hw hq htext beyond⟩
  · exact readsBack_pushed id trivial hw hq ne_nil_of_every beyond
  · refine readsBack_pushed (fun array => .object (before ++ (key, array) :: after)) trivial hw hq
      (fun hn => ?_) beyond
    cases hn with
    | object _ hmembers =>
      exact ne_nil_of_every (hmembers (key, .array items) (by simp))

/-- A member whose string is `a\`, with a backslash. -/
def backslashTree : Json Empty := .object [(['\\'], .value (.string ['a', '\\']) true)]

theorem every_backslashTree : backslashTree.Every writable ∧ backslashTree.Every nonEmpty := by
  refine ⟨.object (List.nodup_singleton _) fun m hm => ?_,
    .object (List.cons_ne_nil _ _) fun m hm => ?_⟩
  · rw [List.mem_singleton.mp hm]
    exact .value rfl
  · rw [List.mem_singleton.mp hm]
    exact .value trivial

theorem readsBack_getStringValue_iff_backslash : ∃ text,
    backslashTree.getStringValue? = some text ∧
      (ReadsBack backslashTree ⟨text, fun _ => '\x00'⟩ ↔ backslashTree.Every quoteFree) := by
  have hroot : backslashTree.IsContainer := trivial
  have hfits : backslashTree.FitsBuffer := by
    rw [fitsBuffer_iff]
    simp [backslashTree, getStringValue, Json.writeStringValue, writeMembers,
      JsonValue.writeStringValue, stringBufferSize]
  exact readsBack_getStringValue_iff hroot every_backslashTree.1 every_backslashTree.2 hfits _

/-- An object with one member, a string. -/
def memberTree (key text : Text) : Json Empty := .object [(key, .value (.string text) true)]

theorem not_readsBack_memberTree {key text : Text} (h : '"' ∈ text ∨ '"' ∈ key ∨ '\x00' ∈ key)
    (input : Input) : ¬ ReadsBack (memberTree key text) input := by
  intro hback
  have hmem : (key, Json.value (.string text) true) ∈
      [(key, (Json.value (.string text) true : Json Empty))] := List.mem_singleton.mpr rfl
  have hw : (memberTree key text).Every writable := by
    refine .object (List.nodup_singleton _) fun m hm => ?_
    rw [List.mem_singleton.mp hm]
    exact .value rfl
  obtain ⟨hq, _⟩ := every_of_readsBack hw hback
  cases hq with
  | object hkeys hmembers =>
    obtain ⟨hquote, hnul⟩ := hkeys _ hmem
    cases hmembers _ hmem with
    | value hfree =>
      rcases h with htext | hkey | hkey
      · exact hfree text rfl htext
      · exact hquote hkey
      · exact hnul hkey

/-- A quote in a value, a quote in a key, a NUL in a key. -/
theorem not_readsBack_quotes :
    ¬ ReadsBack (memberTree ['a'] ['x', '"', 'y'])
        ⟨(memberTree ['a'] ['x', '"', 'y']).getStringValue, fun _ => '\x00'⟩ ∧
      ¬ ReadsBack (memberTree ['x', '"', 'y'] ['a'])
        ⟨(memberTree ['x', '"', 'y'] ['a']).getStringValue, fun _ => '\x00'⟩ ∧
      ¬ ReadsBack (memberTree ['x', '\x00', 'y'] ['a'])
        ⟨(memberTree ['x', '\x00', 'y'] ['a']).getStringValue, fun _ => '\x00'⟩ :=
  ⟨not_readsBack_memberTree (by decide) _, not_readsBack_memberTree (by decide) _,
    not_readsBack_memberTree (by decide) _⟩

/-- An empty object with a space in it, and a member behind it. -/
def siblingText : Text :=
  ['{', '"', 'a', '"', ':', '{', ' ', '}', ',', '"', 'b', '"', ':', '1', '}']

def siblingTree : Json Empty :=
  .object [(['a'], .object []), (['b'], .value (.int64 1) true)]

theorem every_siblingTree : siblingTree.Every writable ∧ siblingTree.Every quoteFree := by
  have hempty : (Json.object [] : Json Empty).Every writable ∧
      (Json.object [] : Json Empty).Every quoteFree := by
    refine ⟨.object List.nodup_nil fun m hm => ?_, .object (fun m hm => ?_) fun m hm => ?_⟩
    all_goals cases hm
  have hkeys : ([['a'], ['b']] : List Text).Nodup := by decide
  refine ⟨.object hkeys fun m hm => ?_, .object (fun m hm => ?_) fun m hm => ?_⟩
  · obtain rfl | rfl : m = _ ∨ m = _ := by simpa [siblingTree] using hm
    · exact hempty.1
    · exact .value trivial
  · obtain rfl | rfl : m = _ ∨ m = _ := by simpa [siblingTree] using hm
    · decide
    · decide
  · obtain rfl | rfl : m = _ ∨ m = _ := by simpa [siblingTree] using hm
    · exact hempty.2
    · refine .value fun s hs => ?_
      cases hs

theorem writesOut_siblingText : WritesOut siblingTree siblingText := by
  have hnone : Blank [] := fun c hc => absurd hc List.not_mem_nil
  have hspace : Blank [' '] := by simp [Blank, isWhitespace]
  refine ⟨siblingTree, every_siblingTree.1, rfl, ?_⟩
  exact ⟨[], _, rfl, hnone, [], _, rfl, hnone, [], _, rfl, hnone, [], _, rfl, hnone, [' '], _, rfl,
    hspace, [], _, rfl, hnone, [], _, rfl, hnone, [], _, rfl, hnone, [], _, rfl, hnone, [], _, rfl,
    hnone, hnone⟩

theorem not_readsBack_empty :
    ¬ ReadsBack (.array [] : Json Empty)
        ⟨(pushAll ([] : List (Json Empty))).getStringValue, fun _ => '\x00'⟩ ∧
      ¬ ReadsBack siblingTree ⟨siblingText, fun _ => '\x00'⟩ := by
  constructor
  · intro hback
    have hw : (.array [] : Json Empty).Every writable := .array trivial fun x hx => by cases hx
    exact ne_nil_of_every (every_of_readsBack hw hback).2 rfl
  · intro hback
    cases (every_of_readsBack every_siblingTree.1 hback).2 with
    | object _ hmembers =>
      cases hmembers (['a'], .object []) (List.mem_cons_self ..) with
      | object hne _ => exact hne rfl

theorem readsBack_iff_nonEmpty_sibling :
    ReadsBack siblingTree ⟨siblingText, fun _ => '\x00'⟩ ↔ siblingTree.Every nonEmpty := by
  have hroot : siblingTree.IsContainer := trivial
  exact (readsBack_iff_nonEmpty _).2.2 _ _ hroot every_siblingTree.1 every_siblingTree.2
    writesOut_siblingText

end Documents

end JsonParse

end OrderBookServer
