import OrderBookServer.BodyParams

/-!
The members of what is read in a body. The readers of forms store strings over what the reader of
JSON leaves; a key that is there keeps its place and loses its value. No key is there twice and
none has a NUL.
-/
namespace OrderBookServer

open StdString

namespace Json

variable {δ : Type} {json : Json δ} {key k : Text} {value : Json δ} {entries : List (Text × Text)}

/-- None for what is no object. -/
def members : Json δ → List (Text × Json δ)
  | .object members => members
  | _ => []

/-- The entry of a parameter. -/
def entryOf (e : Text × Text) : Text × Json δ := (e.1, .ofValue (.string e.2))

/-- What the readers of forms do with their parameters, one after the other. -/
def storeAll (json : Json δ) (entries : List (Text × Text)) : Json δ :=
  entries.foldl (fun json e => json.setKey e.1 (.ofValue (.string e.2))) json

structure Keyed (json : Json δ) : Prop where
  nodup : json.fields.Nodup
  clean : ∀ key ∈ json.fields, '\x00' ∉ key

section Store

theorem fields_eq (json : Json δ) : json.fields = json.members.map Prod.fst := by
  cases json with
  | null => rfl
  | value v isStringFormat => rfl
  | array items => rfl
  | object members => rfl

theorem setKey_eq (json : Json δ) (key : Text) (value : Json δ) : json.setKey key value =
    .object (insertMember (key.takeWhile fun c => c ≠ '\x00') value json.members) := by
  cases json with
  | null => rfl
  | value v isStringFormat => rfl
  | array items => rfl
  | object members => rfl

theorem takeWhile_key (hkey : '\x00' ∉ key) : (key.takeWhile fun c => c ≠ '\x00') = key := by
  rw [List.takeWhile_eq_self_iff]
  intro c hc
  apply decide_eq_true
  rintro rfl
  exact hkey hc

theorem lookup_insertMember (members : List (Text × Json δ)) :
    (insertMember key value members).lookup k =
      if k = key then some value else members.lookup k := by
  induction members with
  | nil =>
    by_cases hk : k = key
    · simp [insertMember, hk]
    · simp [insertMember, List.lookup_cons, hk, beq_eq_false_iff_ne.mpr hk]
  | cons m members ih =>
    obtain ⟨key', value'⟩ := m
    unfold insertMember
    by_cases hkey : key' = key
    · rw [if_pos hkey]
      by_cases hk : k = key
      · simp [hk]
      · have hk' : k ≠ key' := fun heq => hk (heq.trans hkey)
        simp [List.lookup_cons, hk, beq_eq_false_iff_ne.mpr hk, beq_eq_false_iff_ne.mpr hk']
    · rw [if_neg hkey, List.lookup_cons, ih, List.lookup_cons]
      by_cases hk : k = key'
      · simp [hk, hkey]
      · simp [beq_eq_false_iff_ne.mpr hk]

theorem lookup_setKey (hkey : '\x00' ∉ key) : (json.setKey key value).members.lookup k =
    if k = key then some value else json.members.lookup k := by
  rw [setKey_eq, takeWhile_key hkey]
  exact lookup_insertMember json.members

theorem keys_insertMember (members : List (Text × Json δ)) :
    (insertMember key value members).map Prod.fst =
      if key ∈ members.map Prod.fst then members.map Prod.fst
      else members.map Prod.fst ++ [key] := by
  induction members with
  | nil => rfl
  | cons m members ih =>
    unfold insertMember
    by_cases hkey : m.1 = key
    · simp [hkey]
    · have hkey' : key ≠ m.1 := fun heq => hkey heq.symm
      rw [if_neg hkey, List.map_cons, ih]
      simp only [List.map_cons, List.mem_cons, hkey', false_or]
      split
      · rfl
      · rfl

theorem Keyed.setKey (h : json.Keyed) (key : Text) (value : Json δ) :
    (json.setKey key value).Keyed := by
  have hfields : (json.setKey key value).fields =
      (insertMember (key.takeWhile fun c => c ≠ '\x00') value json.members).map Prod.fst := by
    rw [setKey_eq]
    rfl
  have hkey : '\x00' ∉ key.takeWhile fun c => c ≠ '\x00' := by
    intro hmem
    have hne := List.mem_takeWhile_imp hmem
    exact of_decide_eq_true hne rfl
  rw [keys_insertMember, ← fields_eq] at hfields
  constructor
  · rw [hfields]
    split
    · exact h.nodup
    · rename_i hnew
      exact List.nodup_append.mpr ⟨h.nodup, List.nodup_singleton _, by
        rintro k hk k' hk' rfl
        exact hnew (List.mem_singleton.mp hk' ▸ hk)⟩
  · rw [hfields]
    split
    · exact h.clean
    · intro k hk
      rcases List.mem_append.mp hk with hold | hnew
      · exact h.clean k hold
      · rw [List.mem_singleton.mp hnew]
        exact hkey

theorem keyed_of_fields_nil (h : json.fields = []) : json.Keyed :=
  ⟨by simp [h], by simp [h]⟩

theorem keyed_setIndex (json : Json δ) (index : ℕ) (item : Json δ) :
    (json.setIndex index item).Keyed := by
  apply keyed_of_fields_nil
  cases json with
  | null => rfl
  | value v isStringFormat => rfl
  | array items => rfl
  | object members => rfl

theorem Keyed.storeAll (h : json.Keyed) (entries : List (Text × Text)) :
    (json.storeAll entries).Keyed := by
  induction entries generalizing json with
  | nil => exact h
  | cons e entries ih => exact ih (h.setKey _ _)

/-- The last of some entries with the same key is kept. -/
theorem lookup_storeAll (hkeys : ∀ e ∈ entries, '\x00' ∉ e.1) :
    (json.storeAll entries).members.lookup k =
      ((entries.reverse.lookup k).map fun v => .ofValue (.string v)).or
        (json.members.lookup k) := by
  induction entries generalizing json with
  | nil => simp [storeAll]
  | cons e entries ih =>
    obtain ⟨key, v⟩ := e
    have hrest : ∀ e ∈ entries, '\x00' ∉ e.1 := fun e' he' =>
      hkeys e' (List.mem_cons_of_mem _ he')
    have hrun : json.storeAll ((key, v) :: entries) =
        (json.setKey key (.ofValue (.string v))).storeAll entries := rfl
    rw [hrun, ih hrest, lookup_setKey (hkeys _ (List.mem_cons_self ..)), List.reverse_cons,
      List.lookup_append]
    cases entries.reverse.lookup k with
    | some v => simp
    | none =>
      by_cases hk : k = key
      · simp [hk]
      · simp [List.lookup_cons, hk, beq_eq_false_iff_ne.mpr hk]

/-- Entries with different keys are all there, and so is what has another key. -/
theorem mem_storeAll (hjson : json.Keyed) (hclean : ∀ e ∈ entries, '\x00' ∉ e.1)
    (hnodup : (entries.map Prod.fst).Nodup) {e : Text × Json δ} :
    e ∈ (json.storeAll entries).members ↔
      e ∈ entries.map entryOf ∨ e ∈ json.members ∧ e.1 ∉ entries.map Prod.fst := by
  obtain ⟨key, v⟩ := e
  have hstored := (hjson.storeAll entries).nodup
  have hold := hjson.nodup
  rw [fields_eq] at hstored hold
  have hreverse : (entries.reverse.map Prod.fst).Nodup := by
    rw [List.map_reverse]
    exact List.nodup_reverse.mpr hnodup
  have hentry : (key, v) ∈ entries.map entryOf ↔
      ∃ w, entries.reverse.lookup key = some w ∧ .ofValue (.string w) = v := by
    simp only [← HttpRequest.mem_iff_lookup hreverse, List.mem_reverse, List.mem_map, entryOf,
      Prod.mk.injEq]
    constructor
    · rintro ⟨⟨_, w⟩, hmem, rfl, hv⟩
      exact ⟨w, hmem, hv⟩
    · rintro ⟨w, hmem, hv⟩
      exact ⟨(key, w), hmem, rfl, hv⟩
  have hnone : entries.reverse.lookup key = none ↔ key ∉ entries.map Prod.fst := by
    rw [List.lookup_eq_none_iff, List.mem_map]
    simp only [List.mem_reverse, bne_iff_ne]
    constructor
    · rintro hall ⟨e, he, heq⟩
      exact hall e he heq.symm
    · exact fun hnot e he heq => hnot ⟨e, he, heq.symm⟩
  rw [HttpRequest.mem_iff_lookup hstored, lookup_storeAll hclean, hentry,
    HttpRequest.mem_iff_lookup hold, ← hnone]
  cases entries.reverse.lookup key with
  | none => simp
  | some w => simp

theorem storeAll_eq_object (hne : entries ≠ []) :
    json.storeAll entries = .object (json.storeAll entries).members := by
  rw [← List.dropLast_append_getLast hne]
  simp only [storeAll, List.foldl_append, List.foldl_cons, List.foldl_nil]
  rw [setKey_eq]
  rfl

end Store

end Json

namespace JsonParse

variable {δ : Type} [CharConv δ] {input : Input}

theorem keyed_parseObject (fuel : ℕ) {res : Json δ} (hres : res.Keyed) (p : ℕ) :
    Returns (parseObject input fuel res p) fun r => r.1.Keyed := by
  induction fuel generalizing res p with
  | zero =>
    rw [parseObject]
    exact Returns.throw _
  | succ fuel ih =>
    rw [parseObject]
    refine Returns.after fun c => Returns.ite (Returns.pure hres) ?_
    refine Returns.after fun key => Returns.after fun value => Returns.after fun exceeded => ?_
    refine Returns.ite (Returns.pure (hres.setKey _ _)) ?_
    exact Returns.after fun x => ih (hres.setKey _ _) _

theorem keyed_parseArray (fuel : ℕ) {res : Json δ} (hres : res.Keyed) (index p : ℕ) :
    Returns (parseArray input fuel res index p) fun r => r.1.Keyed := by
  induction fuel generalizing res index p with
  | zero =>
    rw [parseArray]
    exact Returns.throw _
  | succ fuel ih =>
    rw [parseArray]
    refine Returns.after fun c => Returns.ite (Returns.pure hres) ?_
    refine Returns.after fun x => Returns.after fun value => Returns.after fun exceeded => ?_
    refine Returns.ite (Returns.pure (Json.keyed_setIndex _ _ _)) ?_
    exact Returns.after fun x => ih (Json.keyed_setIndex _ _ _) _ _

theorem keyed_outermost (fuel : ℕ) :
    Returns (outermost input fuel) fun r : Json δ × ℕ => r.1.Keyed := by
  have hnull : (Json.null : Json δ).Keyed := Json.keyed_of_fields_nil rfl
  refine Returns.after fun start => Returns.after fun c => ?_
  exact Returns.ite (keyed_parseObject fuel hnull _) (keyed_parseArray fuel hnull 0 _)

theorem keyed_parse {fuel : ℕ} {json : Json δ} {s : ParseState}
    (h : parse input fuel initial = .ok json s) : json.Keyed := by
  have hvalue : (Json.ofValue .null : Json δ).Keyed := Json.keyed_of_fields_nil rfl
  by_cases hsize : input.size = 0
  · rw [parse, if_pos hsize] at h
    cases h
    exact hvalue
  · rw [parse_eq hsize] at h
    refine (keyed_outermost fuel).bind (fun r hr => ?_) _ _ _ h
    exact Returns.after fun s => Returns.ite (Returns.pure hr) (Returns.pure hvalue)

end JsonParse

namespace HttpRequest

/-- A parameter of a body into which only strings were stored is the last one with its name. -/
theorem getBodyParamString_storeAll {δ : Type} {request : HttpRequest δ} {json : Json δ}
    {entries : List (Text × Text)} (hpost : request.method.isPost = true)
    (hbody : request.bodyJson = json.storeAll entries)
    (hempty : json.members = []) (hne : entries ≠ []) (hkeys : ∀ e ∈ entries, '\x00' ∉ e.1)
    (name : Text) : request.getBodyParamString name =
      .ok ((entries.reverse.lookup name).getD paramNotFound) := by
  rw [Json.storeAll_eq_object hne] at hbody
  have hlookup : ∀ k, (json.storeAll entries).members.lookup k = _ :=
    fun k => Json.lookup_storeAll hkeys
  simp only [hempty, List.lookup_nil, Option.or_none] at hlookup
  unfold getBodyParamString
  rw [if_pos hpost, hbody]
  simp only [Json.hasField, hlookup]
  cases hname : entries.reverse.lookup name with
  | none => rfl
  | some value =>
    have hmem : (name, value) ∈ entries.reverse := by
      obtain ⟨front, back, heq, _⟩ := List.lookup_eq_some_iff.mp hname
      rw [heq]
      simp
    have hclean := hkeys _ (List.mem_reverse.mp hmem)
    simp only [Json.member, Json.takeWhile_key hclean, hlookup, hname]
    rfl

variable {δ : Type} [CharConv δ] {beyond : ℕ → Char} {text : Text}

theorem keyed_readJson {fuel : ℕ} {json : Json δ} (h : readJson fuel beyond text = .ok json) :
    json.Keyed := by
  unfold readJson at h
  split at h
  · rename_i json' s hrun
    cases h
    exact JsonParse.keyed_parse hrun
  · cases h
  · cases h

/-- A run of the reader that returns is the run with any more fuel. -/
theorem readJson_mono {fuel fuel' : ℕ} {json : Json δ} (hle : fuel ≤ fuel')
    (h : readJson fuel beyond text = .ok json) : readJson fuel' beyond text = .ok json := by
  unfold readJson at h
  split at h
  · rename_i json' s hrun
    have hextends := JsonParse.parse_extends (δ := δ) ⟨text, beyond⟩ hle
    have heq := hextends.eq fun s' hout => by rw [hrun] at hout; cases hout
    unfold readJson
    rw [← heq, hrun]
    exact h
  · cases h
  · cases h

theorem readJson_of_noBracket (hbrace : '{' ∉ text) (hsquare : '[' ∉ text) (fuel : ℕ) :
    readJson (fuel + 2) beyond text = .ok (.ofValue .null : Json δ) := by
  have hparse : ∃ s, JsonParse.parse ⟨text, beyond⟩ (fuel + 2) JsonParse.initial =
      .ok (.ofValue .null : Json δ) s := JsonParse.parse_of_noBracket hbrace hsquare fuel
  obtain ⟨s, hrun⟩ := hparse
  unfold readJson
  rw [hrun]

theorem eq_null_of_noBracket {fuel : ℕ} {json : Json δ} (hbrace : '{' ∉ text)
    (hsquare : '[' ∉ text) (h : readJson fuel beyond text = .ok json) : json = .ofValue .null := by
  have hmore := readJson_mono (Nat.le_add_right fuel 2) h
  rw [readJson_of_noBracket hbrace hsquare] at hmore
  exact (Except.ok.inj hmore).symm

end HttpRequest

end OrderBookServer
