import Mathlib.Data.List.GetD
import OrderBookServer.SnapshotText
import OrderBookServer.UrlEncoded

/-!
The query of an object, which is written member by member in the order of the map, and the loop
that reads it back with every position of the text that it looks at.
-/
namespace OrderBookServer

open StdString Occurrences HttpRequest UrlEncoded

namespace Json

variable {δ : Type}

def isString : Json δ → Bool
  | .value (.string _) _ => true
  | _ => false

/-- On the handle of a value, as no other is asked for. -/
def setIsStringFormat (val : Bool) : Json δ → Json δ
  | .value v _ => .value v val
  | json => json

end Json

namespace HttpRequest

section Encoder

variable {δ : Type} [CharConv δ]

/-- The handle of a member when it is written: there are no quotes in a query. -/
def queryParam (param : Json δ) : Json δ :=
  if param.isString then param.setIsStringFormat false else param

/-- The callback over the members; the counter is an `int`. -/
def queryStringFrom : List (Text × Json δ) → Text → ℤ → Text
  | [], res, _ => res
  | (key, param) :: members, res, counter =>
    let paramStr := (queryParam param).getStringValue
    let separator := if 0 < counter then ['&'] else []
    queryStringFrom members (res ++ (separator ++ (key ++ ('=' :: paramStr))))
      (toInt (counter + 1))

/-- Nothing is written of a handle that does not refer to an object. -/
def getQueryStringFromQueryJson : Json δ → Text
  | .object members => queryStringFrom members [] 0
  | _ => []

end Encoder

section Reads

/-- The inner loop, with the positions whose character is read. -/
def scanParam (queryString : Text) : ℕ → ℕ → List ℕ → Except Failure (ℕ × List ℕ)
  | 0, _, _ => .error .outOfFuel
  | turns + 1, stop, reads =>
    if queryString.getD stop '\x00' ≠ '&' ∧ stop ≠ queryString.length then
      scanParam queryString turns (stop + 1) (reads ++ [stop])
    else .ok (stop, reads ++ [stop])

/-- The loop of `deserialize_query_params`, with the positions whose character is read. -/
def scanQueryParams (turns : ℕ) (queryString : Text) :
    ℕ → ℕ → List (Text × Text) → List ℕ → Except Failure (List (Text × Text) × List ℕ)
  | 0, _, _, _ => .error .outOfFuel
  | rounds + 1, start, params, reads =>
    if start < queryString.length then do
      let (stop, reads) ← scanParam queryString turns start reads
      let param ← substr queryString start (stop - start)
      let equalPos := toInt (find param ['='] 0)
      if equalPos < 0 then return (params, reads)
      let key ← substr param 0 (sizeT equalPos)
      let value ← substr param (sizeT (equalPos + 1)) (sizeT (param.length - 1))
      scanQueryParams turns queryString rounds (stop + 1) (insertParam params key value) reads
    else .ok (params, reads)

variable {queryString : Text} {turns stop : ℕ}

theorem paramEnd_of_stop
    (h : ¬ (queryString.getD stop '\x00' ≠ '&' ∧ stop ≠ queryString.length))
    (hle : stop ≤ queryString.length) : paramEnd queryString stop = stop := by
  unfold paramEnd
  by_cases hend : stop = queryString.length
  · rw [List.drop_eq_nil_of_le hend.ge]
    rfl
  · have hlt : stop < queryString.length := by omega
    have hand : queryString[stop] = '&' := by
      rw [List.getD_eq_getElem _ _ hlt] at h
      by_contra hne
      exact h ⟨hne, hend⟩
    rw [List.drop_eq_getElem_cons hlt, hand]
    simp

theorem paramEnd_succ (hand : queryString.getD stop '\x00' ≠ '&')
    (hlt : stop < queryString.length) :
    paramEnd queryString (stop + 1) = paramEnd queryString stop := by
  rw [List.getD_eq_getElem _ _ hlt] at hand
  unfold paramEnd
  rw [List.drop_eq_getElem_cons hlt, List.takeWhile_cons, if_pos (decide_eq_true hand),
    List.length_cons]
  omega

/-- The inner loop ends at the end of the parameter and reads nothing behind the terminator. -/
theorem scanParam_eq (hle : stop ≤ queryString.length)
    (hturns : queryString.length - stop < turns) (reads : List ℕ) :
    ∃ more, (∀ p ∈ more, p ≤ queryString.length) ∧
      scanParam queryString turns stop reads =
        .ok (paramEnd queryString stop, reads ++ more) := by
  induction turns generalizing stop reads with
  | zero => omega
  | succ turns ih =>
    unfold scanParam
    by_cases hgo : queryString.getD stop '\x00' ≠ '&' ∧ stop ≠ queryString.length
    · have hlt : stop < queryString.length := Nat.lt_of_le_of_ne hle hgo.2
      obtain ⟨more, hmore, hscan⟩ := ih hlt (by omega) (reads ++ [stop])
      refine ⟨stop :: more, ?_, ?_⟩
      · intro p hp
        rcases List.mem_cons.mp hp with rfl | hp
        · exact hle
        · exact hmore p hp
      · rw [if_pos hgo, hscan, paramEnd_succ hgo.1 hlt, List.append_assoc]
        rfl
    · refine ⟨[stop], ?_, ?_⟩
      · intro p hp
        obtain rfl := List.mem_singleton.mp hp
        exact hle
      · rw [if_neg hgo, paramEnd_of_stop hgo hle]

/-- On every query the loop reads nothing behind the terminator, and finds what the stage finds. -/
theorem scanQueryParams_eq (hturns : queryString.length < turns) (rounds start : ℕ)
    (params : List (Text × Text)) (reads : List ℕ) :
    ∃ more, (∀ p ∈ more, p ≤ queryString.length) ∧
      scanQueryParams turns queryString rounds start params reads =
        (queryParamsFrom queryString rounds start params).map
          fun params => (params, reads ++ more) := by
  induction rounds generalizing start params reads with
  | zero => exact ⟨[], fun p hp => absurd hp List.not_mem_nil, rfl⟩
  | succ rounds ih =>
    unfold scanQueryParams queryParamsFrom
    by_cases hlt : start < queryString.length
    · have hfuel : queryString.length - start < turns := by omega
      obtain ⟨first, hfirst, hscan⟩ := scanParam_eq hlt.le hfuel reads
      have hstop : start + ((queryString.drop start).takeWhile fun c => c ≠ '&').length =
        paramEnd queryString start := rfl
      simp only [if_pos hlt, hscan, ok_bind, substr_of_le hlt.le, hstop]
      generalize (queryString.drop start).take (paramEnd queryString start - start) = param
      by_cases hequal : toInt (find param ['='] 0) < 0
      · rw [if_pos hequal, if_pos hequal]
        exact ⟨first, hfirst, rfl⟩
      · rw [if_neg hequal, if_neg hequal]
        cases substr param 0 (sizeT (toInt (find param ['='] 0))) with
        | error e => exact ⟨[], fun p hp => absurd hp List.not_mem_nil, rfl⟩
        | ok key =>
          rw [ok_bind, ok_bind]
          cases substr param (sizeT (toInt (find param ['='] 0) + 1))
              (sizeT (param.length - 1)) with
          | error e => exact ⟨[], fun p hp => absurd hp List.not_mem_nil, rfl⟩
          | ok value =>
            obtain ⟨more, hmore, hrest⟩ := ih (paramEnd queryString start + 1)
              (insertParam params key value) (reads ++ first)
            refine ⟨first ++ more, ?_, ?_⟩
            · intro p hp
              rcases List.mem_append.mp hp with hp | hp
              · exact hfirst p hp
              · exact hmore p hp
            · rw [ok_bind, ok_bind, hrest, List.append_assoc]
    · refine ⟨[], fun p hp => absurd hp List.not_mem_nil, ?_⟩
      rw [if_neg hlt, if_neg hlt, List.append_nil]
      rfl

end Reads

end HttpRequest

def isControl (c : Char) : Prop := c.toNat < 32 ∨ c.toNat = 127

/-- A value of a query: a number, or a string that is shorter than the buffer. -/
inductive IsParam {δ : Type} : Json δ → Prop
  | int64 (x : Int64) (isStringFormat : Bool) : IsParam (.value (.int64 x) isStringFormat)
  | string (s : Text) (isStringFormat : Bool)
    (hclean : ∀ c ∈ s, c ≠ '&' ∧ c ≠ ' ' ∧ ¬ isControl c) (hlength : s.length < stringBufferSize) :
    IsParam (.value (.string s) isStringFormat)

/-- The text of a value, without quotes. -/
def paramText {δ : Type} : Json δ → Text
  | .value (.int64 x) _ => Decimal.toChars x.toInt
  | .value (.string s) _ => s
  | _ => []

/-- A flat object, its members in the order in which the map yields them. -/
structure QueryObject (δ : Type) where
  members : List (Text × Json δ)
  keys_nodup : (members.map Prod.fst).Nodup
  keys_clean : ∀ m ∈ members, ∀ c ∈ m.1, c ≠ '=' ∧ c ≠ '&' ∧ c ≠ ' ' ∧ ¬ isControl c
  values : ∀ m ∈ members, IsParam m.2

namespace QueryObject

variable {δ : Type}

def json (q : QueryObject δ) : Json δ := .object q.members

/-- Each key with the text of its value. -/
def entries (q : QueryObject δ) : List (Text × Text) :=
  q.members.map fun m => (m.1, paramText m.2)

theorem paramText_clean {param : Json δ} (h : IsParam param) :
    ∀ c ∈ paramText param, c ≠ '&' ∧ c ≠ ' ' := by
  intro c hc
  cases h with
  | int64 x isStringFormat =>
    rcases Decimal.isDigit_or_minus hc with hdigit | rfl
    · refine ⟨?_, ?_⟩
      · rintro rfl
        cases hdigit
      · rintro rfl
        cases hdigit
    · decide
  | string s isStringFormat hclean hlength => exact ⟨(hclean c hc).1, (hclean c hc).2.1⟩

theorem keys_of_mem_entries (q : QueryObject δ) : ∀ e ∈ q.entries, '=' ∉ e.1 ∧ '&' ∉ e.1 := by
  intro e he
  obtain ⟨m, hm, rfl⟩ := List.mem_map.mp he
  exact ⟨fun hmem => (q.keys_clean m hm '=' hmem).1 rfl,
    fun hmem => (q.keys_clean m hm '&' hmem).2.1 rfl⟩

theorem values_of_mem_entries (q : QueryObject δ) : ∀ e ∈ q.entries, '&' ∉ e.2 := by
  intro e he
  obtain ⟨m, hm, rfl⟩ := List.mem_map.mp he
  exact fun hmem => (paramText_clean (q.values m hm) '&' hmem).1 rfl

variable [CharConv δ]

def queryString (q : QueryObject δ) : Text := getQueryStringFromQueryJson q.json

/-- A request for `path` with the query, up to whatever follows the address. -/
def request (q : QueryObject δ) (path rest : Text) : Text :=
  SentRequest.getName ++ ' ' :: ((path ++ '?' :: q.queryString) ++ ' ' :: rest)

/-- The positions and the counter that the code keeps in an `int` stay in its range. -/
structure Fits (q : QueryObject δ) (path rest : Text) : Prop where
  mark : path.length < 2147483648
  keys : ∀ m ∈ q.members, m.1.length < 2147483648
  count : q.members.length < 2147483648
  size : (q.request path rest).length < 9223372036854775808

/-- Every value is written inside the buffer, the stages of the address end and find the path and
each key with the text of its value, and no position behind the terminator is read. -/
structure RoundTrips (q : QueryObject δ) (path rest : Text) : Prop where
  written : ∀ m ∈ q.members,
    Json.WritesInside stringBufferSize 0 (queryParam m.2).writeStringValue
  url : ∃ url, deserializeUrl (q.request path rest) = .ok url ∧
    deserializeQueryString url = .ok (path, q.queryString)
  params : Returns (fun turns => deserializeQueryParams turns q.queryString) q.entries
  reads : ∃ n, ∀ turns, n ≤ turns → ∃ reads, (∀ p ∈ reads, p ≤ q.queryString.length) ∧
    scanQueryParams turns q.queryString turns 0 [] [] = .ok (q.entries, reads)

section Encoding

theorem getStringValue_queryParam {param : Json δ} (h : IsParam param) :
    (queryParam param).getStringValue = paramText param := by
  cases h with
  | int64 x isStringFormat =>
    simp [queryParam, Json.isString, Json.getStringValue, Json.writeStringValue,
      JsonValue.writeStringValue, paramText]
  | string s isStringFormat hclean hlength =>
    simp [queryParam, Json.isString, Json.setIsStringFormat, Json.getStringValue,
      Json.writeStringValue, JsonValue.writeStringValue, paramText]

theorem length_toChars_int64 (x : Int64) : (Decimal.toChars x.toInt).length ≤ 20 := by
  have hlow := x.le_toInt
  have hhigh := x.toInt_lt
  have hdigits : (Nat.toDigits 10 x.toInt.natAbs).length ≤ 19 := by
    apply (Nat.length_toDigits_le_iff (by omega) (by omega)).mpr
    omega
  unfold Decimal.toChars
  split
  · rw [List.length_cons]
    omega
  · omega

theorem writesInside_queryParam {param : Json δ} (h : IsParam param) :
    Json.WritesInside stringBufferSize 0 (queryParam param).writeStringValue := by
  rw [Json.writesInside_iff (Nat.zero_le _), Nat.zero_add]
  change (queryParam param).getStringValue.length ≤ stringBufferSize
  rw [getStringValue_queryParam h]
  cases h with
  | int64 x isStringFormat => exact (length_toChars_int64 x).trans (by decide)
  | string s isStringFormat hclean hlength => exact hlength.le

theorem encode_cons (e : Text × Text) (params : List (Text × Text)) :
    encode (e :: params) = encodeParam e ++ params.flatMap fun f => '&' :: encodeParam f := by
  induction params generalizing e with
  | nil => simp [encode_singleton]
  | cons f params ih =>
    rw [encode_cons_cons, ih f, List.flatMap_cons]
    rfl

/-- Behind the first member each one comes with a separator. -/
theorem queryStringFrom_of_pos {members : List (Text × Json δ)}
    (hvalues : ∀ m ∈ members, IsParam m.2) (res : Text) {counter : ℤ} (hpos : 0 < counter)
    (hcount : counter + members.length < 2147483648) :
    queryStringFrom members res counter =
      res ++ (members.map fun m => (m.1, paramText m.2)).flatMap fun f => '&' :: encodeParam f := by
  induction members generalizing res counter with
  | nil => simp [queryStringFrom]
  | cons m members ih =>
    obtain ⟨key, param⟩ := m
    rw [List.length_cons] at hcount
    have hnext : toInt (counter + 1) = counter + 1 := toInt_of_lt (by omega) (by omega)
    have htext := getStringValue_queryParam (hvalues (key, param) (List.mem_cons_self ..))
    unfold queryStringFrom
    simp only [hnext, htext, if_pos hpos]
    rw [ih (fun m hm => hvalues m (List.mem_cons_of_mem _ hm)) _ (by omega) (by omega),
      List.map_cons, List.flatMap_cons]
    simp [encodeParam]

/-- The query is the one that the parameters are read from. -/
theorem queryString_eq (q : QueryObject δ) (hcount : q.members.length < 2147483648) :
    q.queryString = encode q.entries := by
  have hvalues := q.values
  unfold queryString json getQueryStringFromQueryJson entries
  cases hmembers : q.members with
  | nil => rfl
  | cons m members =>
    rw [hmembers] at hvalues hcount
    rw [List.length_cons] at hcount
    obtain ⟨key, param⟩ := m
    have hone : toInt (0 + 1) = 1 := rfl
    have htext := getStringValue_queryParam (hvalues (key, param) (List.mem_cons_self ..))
    unfold queryStringFrom
    simp only [hone, htext]
    rw [queryStringFrom_of_pos (fun m hm => hvalues m (List.mem_cons_of_mem _ hm)) _ (by omega)
      (by omega), List.map_cons, encode_cons]
    simp [encodeParam]

end Encoding

section Decoding

variable {q : QueryObject δ} {path rest : Text}

theorem blank_notMem_queryString (hcount : q.members.length < 2147483648) :
    ' ' ∉ q.queryString := by
  rw [queryString_eq q hcount]
  apply notMem_encode (by decide) (by decide)
  intro e he hmem
  obtain ⟨m, hm, rfl⟩ := List.mem_map.mp he
  rcases List.mem_append.mp hmem with hkey | hvalue
  · exact (q.keys_clean m hm ' ' hkey).2.2.1 rfl
  · exact (paramText_clean (q.values m hm) ' ' hvalue).2 rfl

/-- The address is everything between the blanks, and the query what is behind its first mark. -/
theorem url_of_fits (hpath : ∀ c ∈ path, c ≠ '?' ∧ c ≠ ' ') (hfits : q.Fits path rest) :
    deserializeUrl (q.request path rest) = .ok (path ++ '?' :: q.queryString) ∧
      deserializeQueryString (path ++ '?' :: q.queryString) = .ok (path, q.queryString) := by
  have hsize := hfits.size
  have hmark : '?' ∉ path := fun hmem => (hpath '?' hmem).1 rfl
  have hblank : ' ' ∉ path ++ '?' :: q.queryString := by
    intro hmem
    rcases List.mem_append.mp hmem with hfront | hback
    · exact (hpath ' ' hfront).2 rfl
    · rcases List.mem_cons.mp hback with heq | hquery
      · exact absurd heq (by decide)
      · exact blank_notMem_queryString hfits.count hquery
  have hmethod : ' ' ∉ SentRequest.getName := fun hmem =>
    (SentRequest.getName_clean ' ' hmem).1 rfl
  constructor
  · exact deserializeUrl_between hmethod hblank hsize
  · apply deserializeQueryString_append hmark hfits.mark
    unfold request at hsize
    simp only [List.length_append, List.length_cons] at hsize ⊢
    omega

/-- The stage of the parameters finds each key with its text. -/
theorem deserializeQueryParams_queryString (hfits : q.Fits path rest) {turns : ℕ}
    (hturns : q.entries.length < turns) :
    deserializeQueryParams turns q.queryString = .ok q.entries := by
  have hkeys : ∀ e ∈ q.entries, e.1.length < 2147483648 := by
    intro e he
    obtain ⟨m, hm, rfl⟩ := List.mem_map.mp he
    exact hfits.keys m hm
  have hsize : q.queryString.length < 9223372036854775808 := by
    have hsize := hfits.size
    unfold request at hsize
    simp only [List.length_append, List.length_cons] at hsize
    omega
  have hnodup : (([] ++ q.entries).map Prod.fst).Nodup := by
    rw [List.nil_append, entries, List.map_map]
    exact q.keys_nodup
  have hall : deserializeQueryParams turns q.queryString = .ok (insertAll [] q.entries) := by
    apply queryParamsFrom_encode hsize hkeys (keys_of_mem_entries q) (values_of_mem_entries q) _
      hturns
    rw [List.drop_zero, queryString_eq q hfits.count]
  rw [hall, insertAll_append_of_nodup hnodup, List.nil_append]

/-- A flat object comes back from its query with the text of each value. -/
theorem roundTrips_of_fits (q : QueryObject δ) (hpath : ∀ c ∈ path, c ≠ '?' ∧ c ≠ ' ')
    (hfits : q.Fits path rest) : q.RoundTrips path rest := by
  obtain ⟨hurl, hquery⟩ := url_of_fits hpath hfits
  refine ⟨fun m hm => writesInside_queryParam (q.values m hm), ⟨_, hurl, hquery⟩, ?_, ?_⟩
  · exact ⟨q.entries.length + 1, fun turns hturns =>
      deserializeQueryParams_queryString hfits hturns⟩
  · refine ⟨max (q.queryString.length + 1) (q.entries.length + 1), fun turns hturns => ?_⟩
    obtain ⟨reads, hreads, hscan⟩ :=
      scanQueryParams_eq (by omega : q.queryString.length < turns) turns 0 [] []
    have hall : queryParamsFrom q.queryString turns 0 [] = .ok q.entries :=
      deserializeQueryParams_queryString hfits (by omega)
    refine ⟨reads, hreads, ?_⟩
    rw [hscan, hall, List.nil_append]
    rfl

/-- A number and a string with the signs that end a key and a path. -/
def sample : QueryObject Empty where
  members := [(['n'], .value (.int64 5) true), (['s'], .value (.string ['=', '?']) true)]
  keys_nodup := by simp
  keys_clean := by simp [isControl]
  values m hm := by
    simp only [List.mem_cons, List.not_mem_nil, or_false] at hm
    rcases hm with rfl | rfl
    · exact .int64 5 true
    · exact .string _ true (by simp [isControl]) (by decide)

theorem fits_sample : sample.Fits ['/'] [] where
  mark := by decide
  keys := by simp [sample]
  count := by decide
  size := by
    have hnumber := length_toChars_int64 5
    unfold request
    rw [queryString_eq sample (by decide)]
    simp only [sample, entries, List.map_cons, List.map_nil, encode, encodeParam, paramText,
      SentRequest.getName, List.length_append, List.length_cons, List.length_nil]
    omega

theorem roundTrips_of_fits_sample : sample.RoundTrips ['/'] [] := by
  apply roundTrips_of_fits sample
  · simp
  · exact fits_sample

end Decoding

end QueryObject

end OrderBookServer
