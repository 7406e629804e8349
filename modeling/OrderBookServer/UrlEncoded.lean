import OrderBookServer.BodyMembers
import OrderBookServer.SentRequest

/-!
Parameters in the query of an address and in a body. Both readers end a key at its first equals
sign. The reader of the query takes all the rest as the value and keeps the first value of a key;
that of the body ends a value at the next equals sign and keeps the last one.
-/
namespace OrderBookServer

open StdString Occurrences HttpRequest

structure UrlEncoded where
  params : List (Text × Text)
  params_ne : params ≠ []
  keys : ∀ e ∈ params, '=' ∉ e.1 ∧ '&' ∉ e.1
  values : ∀ e ∈ params, '&' ∉ e.2
  clean : ∀ e ∈ params, ∀ c ∈ e.1 ++ e.2,
    c ≠ '{' ∧ c ≠ '}' ∧ c ≠ '[' ∧ c ≠ ']' ∧ c ≠ '\x00' ∧ c ≠ ' '

namespace UrlEncoded

def encodeParam (e : Text × Text) : Text := e.1 ++ ('=' :: e.2)

def encode : List (Text × Text) → Text
  | [] => []
  | [e] => encodeParam e
  | e :: f :: params => encodeParam e ++ ('&' :: encode (f :: params))

def text (u : UrlEncoded) : Text := encode u.params

/-- What is in front of the first equals sign. -/
def front (value : Text) : Text := value.takeWhile fun c => c ≠ '='

/-- The first value of each key is what its last value has in front of an equals sign. -/
def Agrees (u : UrlEncoded) : Prop :=
  ∀ key, u.params.lookup key = (u.params.reverse.lookup key).map front

section Encoding

variable {e : Text × Text} {params : List (Text × Text)} {c : Char}

theorem encode_singleton (e : Text × Text) : encode [e] = encodeParam e := rfl

theorem encode_cons_cons (e f : Text × Text) (params : List (Text × Text)) :
    encode (e :: f :: params) = encodeParam e ++ ('&' :: encode (f :: params)) := rfl

theorem encode_ne_nil (e : Text × Text) (params : List (Text × Text)) :
    encode (e :: params) ≠ [] := by
  cases params with
  | nil => simp [encode_singleton, encodeParam]
  | cons f params => simp [encode_cons_cons, encodeParam]

theorem mem_encode (h : c ∈ encode params) : c = '&' ∨ c = '=' ∨ ∃ e ∈ params, c ∈ e.1 ++ e.2 := by
  have hparam : ∀ e : Text × Text, c ∈ encodeParam e → c = '=' ∨ c ∈ e.1 ++ e.2 := by
    intro e hc
    rcases List.mem_append.mp hc with hkey | hrest
    · exact Or.inr (List.mem_append_left _ hkey)
    · rcases List.mem_cons.mp hrest with heq | hvalue
      · exact Or.inl heq
      · exact Or.inr (List.mem_append_right _ hvalue)
  fun_induction encode params with
  | case1 => cases h
  | case2 e =>
    rcases hparam e h with heq | hmem
    · exact Or.inr (Or.inl heq)
    · exact Or.inr (Or.inr ⟨e, List.mem_singleton_self e, hmem⟩)
  | case3 e f params ih =>
    rcases List.mem_append.mp h with hfront | hrest
    · rcases hparam e hfront with heq | hmem
      · exact Or.inr (Or.inl heq)
      · exact Or.inr (Or.inr ⟨e, List.mem_cons_self .., hmem⟩)
    · rcases List.mem_cons.mp hrest with heq | hrest
      · exact Or.inl heq
      · rcases ih hrest with hand | hequals | ⟨g, hg, hmem⟩
        · exact Or.inl hand
        · exact Or.inr (Or.inl hequals)
        · exact Or.inr (Or.inr ⟨g, List.mem_cons_of_mem _ hg, hmem⟩)

/-- What is neither in a parameter nor between two of its parts is not in the text. -/
theorem notMem_encode (hand : c ≠ '&') (hequals : c ≠ '=')
    (h : ∀ e ∈ params, c ∉ e.1 ++ e.2) : c ∉ encode params := by
  intro hmem
  rcases mem_encode hmem with heq | heq | ⟨e, he, hc⟩
  · exact hand heq
  · exact hequals heq
  · exact h e he hc

theorem notMem_text (u : UrlEncoded) : '{' ∉ u.text ∧ '[' ∉ u.text ∧ ' ' ∉ u.text := by
  refine ⟨?_, ?_, ?_⟩
  · exact notMem_encode (by decide) (by decide) fun e he hc => (u.clean e he _ hc).1 rfl
  · exact notMem_encode (by decide) (by decide) fun e he hc => (u.clean e he _ hc).2.2.1 rfl
  · exact notMem_encode (by decide) (by decide) fun e he hc => (u.clean e he _ hc).2.2.2.2.2 rfl

theorem nul_notMem_key (u : UrlEncoded) : ∀ e ∈ u.params, '\x00' ∉ e.1 := fun e he hmem =>
  (u.clean e he _ (List.mem_append_left _ hmem)).2.2.2.2.1 rfl

theorem and_notMem_param (hkey : '&' ∉ e.1) (hvalue : '&' ∉ e.2) : '&' ∉ encodeParam e := by
  simp [encodeParam, hkey, hvalue]

theorem splitOn_encode (hkeys : ∀ e ∈ params, '&' ∉ e.1) (hvalues : ∀ e ∈ params, '&' ∉ e.2)
    (hne : params ≠ []) : splitOn ['&'] (encode params) = params.map encodeParam := by
  fun_induction encode params with
  | case1 => exact absurd rfl hne
  | case2 e =>
    have hnone := and_notMem_param (hkeys e (List.mem_singleton_self e))
      (hvalues e (List.mem_singleton_self e))
    exact splitOn_of_none (indexOf_of_notMem hnone)
  | case3 e f params ih =>
    have hnone := and_notMem_param (hkeys e (List.mem_cons_self ..))
      (hvalues e (List.mem_cons_self ..))
    have hrest := ih (fun e he => hkeys e (List.mem_cons_of_mem _ he))
      (fun e he => hvalues e (List.mem_cons_of_mem _ he)) (List.cons_ne_nil _ _)
    rw [List.map_cons, ← hrest]
    exact splitOn_append_of_notMem hnone

theorem splitOn_text (u : UrlEncoded) : splitOn ['&'] u.text = u.params.map encodeParam :=
  splitOn_encode (fun e he => (u.keys e he).2) u.values u.params_ne

theorem length_encodeParam_le (u : UrlEncoded) (he : e ∈ u.params) :
    (encodeParam e).length ≤ u.text.length := by
  apply length_le_of_mem_splitOn
  rw [splitOn_text]
  exact List.mem_map_of_mem he

/-- The pieces of a parameter: its key, its value up to an equals sign, and more. -/
theorem splitOn_param (hkey : '=' ∉ e.1) :
    ∃ pieces, splitOn ['='] (encodeParam e) = e.1 :: front e.2 :: pieces := by
  obtain ⟨pieces, hpieces⟩ := exists_splitOn_eq '=' e.2
  refine ⟨pieces, ?_⟩
  have hsplit : splitOn ['='] (encodeParam e) = e.1 :: splitOn ['='] e.2 :=
    splitOn_append_of_notMem hkey
  rw [hsplit, hpieces]
  rfl

end Encoding

section Query

variable {queryString : Text} {start turns : ℕ} {e : Text × Text}
  {found params : List (Text × Text)}

/-- What is behind the first parameter and the sign that follows it. -/
theorem drop_encode (e : Text × Text) (params : List (Text × Text)) :
    (encode (e :: params)).drop ((encodeParam e).length + 1) = encode params := by
  cases params with
  | nil => exact List.drop_eq_nil_iff.mpr (Nat.le_succ _)
  | cons f params =>
    rw [encode_cons_cons, ← List.drop_drop, List.drop_left, List.drop_one, List.tail_cons]

theorem takeWhile_encode (hkey : '&' ∉ e.1) (hvalue : '&' ∉ e.2) (params : List (Text × Text)) :
    ((encode (e :: params)).takeWhile fun c => c ≠ '&') = encodeParam e := by
  have hall : ∀ c ∈ encodeParam e, decide (c ≠ '&') = true := by
    intro c hc
    apply decide_eq_true
    rintro rfl
    exact and_notMem_param hkey hvalue hc
  cases params with
  | nil => exact List.takeWhile_eq_self_iff.mpr hall
  | cons f params =>
    rw [encode_cons_cons, List.takeWhile_append_of_pos hall]
    simp

/-- The loop over a query inserts its parameters one after the other. -/
theorem queryParamsFrom_encode (hsize : queryString.length < 9223372036854775808)
    (hlengths : ∀ e ∈ params, e.1.length < 2147483648)
    (hkeys : ∀ e ∈ params, '=' ∉ e.1 ∧ '&' ∉ e.1) (hvalues : ∀ e ∈ params, '&' ∉ e.2)
    (hdrop : queryString.drop start = encode params) (hturns : params.length < turns) :
    queryParamsFrom queryString turns start found = .ok (insertAll found params) := by
  induction params generalizing start turns found with
  | nil =>
    obtain ⟨turns, rfl⟩ : ∃ n, turns = n + 1 := ⟨turns - 1, by omega⟩
    have hend : ¬ start < queryString.length := Nat.not_lt.mpr (List.drop_eq_nil_iff.mp hdrop)
    unfold queryParamsFrom
    rw [if_neg hend]
    rfl
  | cons e params ih =>
    obtain ⟨turns, rfl⟩ : ∃ n, turns = n + 1 := ⟨turns - 1, by omega⟩
    rw [List.length_cons] at hturns
    obtain ⟨hequals, hand⟩ := hkeys e (List.mem_cons_self ..)
    have hlt : start < queryString.length := by
      by_contra hge
      rw [List.drop_eq_nil_iff.mpr (Nat.not_lt.mp hge)] at hdrop
      exact encode_ne_nil e params hdrop.symm
    have htake := takeWhile_encode hand (hvalues e (List.mem_cons_self ..)) params
    have hend : paramEnd queryString start = start + (encodeParam e).length := by
      unfold paramEnd
      rw [hdrop, htake]
    have hparam : paramAt queryString start = encodeParam e := by
      unfold paramAt
      rw [hend, hdrop, Nat.add_sub_cancel_left, ← htake]
      exact (List.prefix_iff_eq_take.mp (List.takeWhile_prefix _)).symm
    have hindex : indexOf ['='] (encodeParam e) = some e.1.length :=
      indexOf_append_of_notMem hequals
    have hfront : (encodeParam e).take e.1.length = e.1 := List.take_left
    have hback : (encodeParam e).drop (e.1.length + 1) = e.2 := by
      unfold encodeParam
      rw [← List.drop_drop, List.drop_left, List.drop_one, List.tail_cons]
    have hshort : ∀ i, indexOf ['='] (paramAt queryString start) = some i → i < 2147483648 := by
      intro i hi
      rw [hparam, hindex] at hi
      obtain rfl := Option.some.inj hi
      exact hlengths e (List.mem_cons_self ..)
    rw [queryParamsFrom_of_equals hsize hlt hshort, hparam, hindex]
    simp only [hfront, hback, hend]
    apply ih (fun e he => hlengths e (List.mem_cons_of_mem _ he))
      (fun e he => hkeys e (List.mem_cons_of_mem _ he))
      (fun e he => hvalues e (List.mem_cons_of_mem _ he)) _ (by omega)
    rw [Nat.add_assoc, ← List.drop_drop, hdrop, drop_encode]

/-- A parameter of the query is the first one with its name. -/
theorem getQueryParam_eq {δ : Type} {u : UrlEncoded} {parse : Text → Except Failure (Json δ)}
    {method : RequestMethod} {content : Text} {request : HttpRequest δ}
    (hsize : u.text.length < 2147483648)
    (hread : Returns (fun turns => deserialize turns parse method content) request)
    (hquery : request.queryString = u.text) (name : Text) :
    request.getQueryParam name = (u.params.lookup name).getD paramNotFound := by
  obtain ⟨n, hn⟩ := hread
  have hparams := queryParams_of_deserialize (hn (max n (u.params.length + 1)) (by omega))
  have hlengths : ∀ e ∈ u.params, e.1.length < 2147483648 := by
    intro e he
    have hle := length_encodeParam_le u he
    have hkey : (encodeParam e).length = e.1.length + (e.2.length + 1) := List.length_append
    omega
  have hall : deserializeQueryParams (max n (u.params.length + 1)) u.text =
      .ok (insertAll [] u.params) :=
    queryParamsFrom_encode (by omega) hlengths u.keys u.values List.drop_zero (by omega)
  rw [hquery, hall] at hparams
  have hlookup : request.queryParams.lookup name = u.params.lookup name := by
    rw [← Except.ok.inj hparams, lookup_insertAll, List.nil_append]
  unfold getQueryParam
  rw [hlookup]
  cases u.params.lookup name with
  | none => rfl
  | some value => rfl

end Query

section Body

variable {δ : Type} {turns : ℕ} {json : Json δ} {params : List (Text × Text)}

/-- What the reader of a body stores of a parameter. -/
def stored (e : Text × Text) : Text × Text := (e.1, front e.2)

theorem rawDataFrom_params (hkeys : ∀ e ∈ params, '=' ∉ e.1)
    (hsize : ∀ e ∈ params, (encodeParam e).length < 2147483648)
    (hturns : ∀ e ∈ params, (encodeParam e).length < turns) :
    rawDataFrom turns (params.map encodeParam) json = .ok (json.storeAll (params.map stored)) := by
  induction params generalizing json with
  | nil => rfl
  | cons e params ih =>
    obtain ⟨pieces, hpieces⟩ := splitOn_param (hkeys e (List.mem_cons_self ..))
    have hsplit : splitString turns (encodeParam e) ['='] = .ok (e.1 :: front e.2 :: pieces) := by
      rw [← hpieces]
      exact splitString_eq (List.cons_ne_nil _ _) (hsize e (List.mem_cons_self ..))
        (hturns e (List.mem_cons_self ..))
    rw [List.map_cons, rawDataFrom, hsplit, ok_bind]
    exact ih (fun e he => hkeys e (List.mem_cons_of_mem _ he))
      (fun e he => hsize e (List.mem_cons_of_mem _ he))
      fun e he => hturns e (List.mem_cons_of_mem _ he)

/-- The body is no form and is read as a null, so its parameters are stored. -/
theorem deserializeBodyRawData_text (u : UrlEncoded) (hsize : u.text.length < 2147483648)
    (hturns : u.text.length < turns) :
    deserializeBodyRawData turns u.text (.ofValue .null : Json δ) =
      .ok ((Json.ofValue .null).storeAll (u.params.map stored)) := by
  have hsplit : splitString turns u.text ['&'] = .ok (u.params.map encodeParam) := by
    rw [← splitOn_text]
    exact splitString_eq (List.cons_ne_nil _ _) hsize hturns
  have hnull : isNull (.ofValue .null : Json δ) = true := rfl
  unfold deserializeBodyRawData
  rw [if_pos hnull, hsplit, ok_bind]
  exact rawDataFrom_params (fun e he => (u.keys e he).1)
    (fun e he => Nat.lt_of_le_of_lt (length_encodeParam_le u he) hsize)
    fun e he => Nat.lt_of_le_of_lt (length_encodeParam_le u he) hturns

theorem indexOf_keyFormat (u : UrlEncoded) : indexOf keyFormat u.text = none := by
  rw [indexOf_eq_none_iff_notInfix]
  intro hinside
  have hblank : ' ' ∈ keyFormat := by decide
  exact (notMem_text u).2.2 (hinside.subset hblank)

theorem deserializeBodyFormData_text (u : UrlEncoded) (hsize : u.text.length < 2147483648) :
    deserializeBodyFormData turns u.text json = .ok json := by
  rw [deserializeBodyFormData_eq hsize, indexOf_keyFormat]

theorem nul_notMem_stored (u : UrlEncoded) : ∀ e ∈ u.params.map stored, '\x00' ∉ e.1 := by
  intro e he
  obtain ⟨f, hf, rfl⟩ := List.mem_map.mp he
  exact nul_notMem_key u f hf

/-- A parameter of the body is the front of the last one with its name. -/
theorem getBodyParamString_eq [CharConv δ] {u : UrlEncoded} {fuel : ℕ} {beyond : ℕ → Char}
    {method : RequestMethod} {content : Text} {request : HttpRequest δ}
    (hsize : u.text.length < 2147483648) (hpost : method.isPost = true)
    (hread : Returns (fun turns => deserialize turns (readJson fuel beyond) method content) request)
    (hbody : request.body = u.text) (name : Text) : request.getBodyParamString name =
      .ok (((u.params.map stored).reverse.lookup name).getD paramNotFound) := by
  obtain ⟨hbrace, hsquare, _⟩ := notMem_text u
  obtain ⟨n, hn⟩ := hread
  have hrun := hn (max n (u.text.length + 1)) (by omega)
  obtain ⟨json, withForm, hjson, hform, hraw⟩ := stages_of_deserialize hpost hrun
  rw [← method_of_deserialize hrun] at hpost
  rw [hbody] at hjson hform hraw
  obtain rfl := eq_null_of_noBracket hbrace hsquare hjson
  rw [deserializeBodyFormData_text u hsize] at hform
  obtain rfl := Except.ok.inj hform
  rw [deserializeBodyRawData_text u hsize (by omega)] at hraw
  exact getBodyParamString_storeAll hpost (Except.ok.inj hraw).symm rfl
    (fun hnil => u.params_ne (List.map_eq_nil_iff.mp hnil)) (nul_notMem_stored u) name

end Body

section Answers

variable {δ : Type} [CharConv δ] {u : UrlEncoded} {fuel fuel' : ℕ} {beyond beyond' : ℕ → Char}
  {method method' : RequestMethod} {content content' : Text} {request request' : HttpRequest δ}

theorem lookup_stored (params : List (Text × Text)) (key : Text) :
    (params.map stored).lookup key = (params.lookup key).map front := by
  induction params with
  | nil => rfl
  | cons e params ih =>
    rw [List.map_cons, List.lookup_cons, List.lookup_cons, ih]
    by_cases hkey : key = e.1
    · simp [stored, hkey]
    · simp [stored, beq_eq_false_iff_ne.mpr hkey]

theorem lookup_reverse_eq_none_iff (params : List (Text × Text)) (key : Text) :
    params.reverse.lookup key = none ↔ params.lookup key = none := by
  rw [List.lookup_eq_none_iff, List.lookup_eq_none_iff]
  simp only [List.mem_reverse]

/-- Parameters have the same answers in a query and in a body exactly where the first value of
each key is what its last value has in front of an equals sign. -/
theorem sameAnswers_iff_agrees (hsize : u.text.length < 2147483648)
    (hquery : Returns (fun turns => deserialize turns (readJson fuel beyond) method content)
      request)
    (hqueryString : request.queryString = u.text) (hpost : method'.isPost = true)
    (hbody : Returns (fun turns => deserialize turns (readJson fuel' beyond') method' content')
      request')
    (hbodyText : request'.body = u.text) :
    (∀ name, request'.getBodyParamString name = .ok (request.getQueryParam name)) ↔ u.Agrees := by
  have hanswer : ∀ name, request'.getBodyParamString name = .ok (request.getQueryParam name) ↔
      ((u.params.reverse.lookup name).map front).getD paramNotFound =
        (u.params.lookup name).getD paramNotFound := by
    intro name
    rw [getBodyParamString_eq hsize hpost hbody hbodyText,
      getQueryParam_eq hsize hquery hqueryString, ← List.map_reverse, lookup_stored,
      Except.ok.injEq]
  unfold Agrees
  simp only [hanswer]
  constructor
  · intro hsame key
    have hnone := lookup_reverse_eq_none_iff u.params key
    have hkey := hsame key
    cases hlast : u.params.reverse.lookup key with
    | none => rw [hnone.mp hlast, Option.map_none]
    | some last =>
      cases hfirst : u.params.lookup key with
      | none =>
        rw [hnone.mpr hfirst] at hlast
        cases hlast
      | some first =>
        rw [hlast, hfirst] at hkey
        exact congrArg some hkey.symm
  · intro hagrees name
    rw [hagrees name]

/-- The text is the query string of a whole request with it in the address. -/
theorem exists_query {m : SentRequest} (hsize : m.bytes.length < 2147483648)
    (hmethod : RequestMethod.requestMethodMap m.method = some method)
    (hnot : ¬ method.isPost = true) (hquery : m.query = some u.text) :
    ∃ request : HttpRequest δ,
      Returns (fun turns => deserialize turns (readJson fuel beyond) method m.bytes) request ∧
        request.queryString = u.text := by
  have hbody : Returns (fun turns => deserializeBodyOf turns
      (readJson fuel beyond : Text → Except Failure (Json δ)) method m.bytes) ([], .null) := by
    simp only [deserializeBodyOf, if_neg hnot]
    exact Returns.pure _
  obtain ⟨request, hread, _⟩ := SentRequest.deserialize_bytes hsize hmethod hbody
  obtain ⟨_, hfour⟩ := blank_of_methodOf ((SentRequest.methodOf_bytes m).trans hmethod)
  obtain ⟨hfrom, _⟩ := readFrom_of_returns (.of_length hsize) (by omega) hread
  refine ⟨request, hread, ?_⟩
  rw [(SentRequest.url_of_readFrom hsize hfrom).2, hquery, Option.getD_some]

/-- The text is the body of a whole request with it behind the headers. -/
theorem exists_body {m : SentRequest} (hsize : m.bytes.length < 2147483648)
    (hmethod : RequestMethod.requestMethodMap m.method = some method)
    (hpost : method.isPost = true) (hbody : m.body = u.text) :
    ∃ request : HttpRequest δ,
      Returns (fun turns => deserialize turns (readJson (fuel + 2) beyond) method m.bytes) request ∧
        request.body = u.text := by
  obtain ⟨hbrace, hsquare, _⟩ := notMem_text u
  have hshort : u.text.length < 2147483648 := by
    have hle := length_bodyOf_le m.bytes
    rw [SentRequest.bodyOf_bytes, hbody] at hle
    omega
  have hread : Returns (fun turns => deserializeBodyOf turns
      (readJson (fuel + 2) beyond : Text → Except Failure (Json δ)) method m.bytes)
      (u.text, (Json.ofValue .null).storeAll (u.params.map stored)) := by
    refine ⟨u.text.length + 1, fun turns hturns => ?_⟩
    beta_reduce
    rw [SentRequest.deserializeBodyOf_bytes hsize hmethod hpost, hbody,
      readJson_of_noBracket hbrace hsquare, ok_bind, deserializeBodyFormData_text u hshort, ok_bind,
      deserializeBodyRawData_text u hshort hturns, ok_bind]
  obtain ⟨request, hreturns, hsame, _⟩ := SentRequest.deserialize_bytes hsize hmethod hread
  exact ⟨request, hreturns, hsame⟩

end Answers

section OneParam

variable {δ : Type}

/-- A parameter whose key is a letter. -/
def oneParam (value : Text) (hvalue : ∀ c ∈ value, c ≠ '&' ∧ c ≠ '{' ∧ c ≠ '}' ∧ c ≠ '[' ∧
    c ≠ ']' ∧ c ≠ '\x00' ∧ c ≠ ' ') : UrlEncoded where
  params := [(['a'], value)]
  params_ne := List.cons_ne_nil _ _
  keys e he := by
    obtain rfl := List.mem_singleton.mp he
    simp
  values e he := by
    obtain rfl := List.mem_singleton.mp he
    exact fun hmem => (hvalue _ hmem).1 rfl
  clean e he c hc := by
    obtain rfl := List.mem_singleton.mp he
    rcases List.mem_cons.mp hc with rfl | hmem
    · decide
    · exact (hvalue c hmem).2

/-- A request with the text in its address. -/
def getText (u : UrlEncoded) (hcr : '\r' ∉ u.text) (hlf : '\n' ∉ u.text) : SentRequest :=
  .get u.text fun _ hc => ⟨fun heq => (notMem_text u).2.2 (heq ▸ hc), fun heq => hcr (heq ▸ hc),
    fun heq => hlf (heq ▸ hc)⟩

/-- The text arrives in the address of one request and as the body of another. -/
theorem exists_requests [CharConv δ] (u : UrlEncoded) (hcr : '\r' ∉ u.text) (hlf : '\n' ∉ u.text)
    (hget : (getText u hcr hlf).bytes.length < 2147483648)
    (hpost : (SentRequest.post u.text).bytes.length < 2147483648) :
    ∃ request request' : HttpRequest δ,
      Returns (fun turns => deserialize turns (readJson 2 noneBeyond) .get
        (getText u hcr hlf).bytes) request ∧ request.queryString = u.text ∧
      Returns (fun turns => deserialize turns (readJson 2 noneBeyond) .post
        (SentRequest.post u.text).bytes) request' ∧ request'.body = u.text := by
  obtain ⟨request, hquery, hqueryString⟩ : ∃ request : HttpRequest δ,
      Returns (fun turns => deserialize turns (readJson 2 noneBeyond) .get
        (getText u hcr hlf).bytes) request ∧ request.queryString = u.text :=
    exists_query hget rfl (by decide) rfl
  obtain ⟨request', hbody, hbodyText⟩ : ∃ request : HttpRequest δ,
      Returns (fun turns => deserialize turns (readJson (0 + 2) noneBeyond) .post
        (SentRequest.post u.text).bytes) request ∧ request.body = u.text :=
    exists_body hpost rfl rfl rfl
  exact ⟨request, request', hquery, hqueryString, hbody, hbodyText⟩

def plainParam : UrlEncoded := oneParam ['1'] (by simp)

theorem agrees_plainParam : plainParam.Agrees := by
  intro key
  have hparams : plainParam.params = [(['a'], ['1'])] := rfl
  rw [hparams, List.reverse_singleton, List.lookup_cons]
  cases key == ['a'] with
  | true => rfl
  | false => rfl

theorem sameAnswers_iff_agrees_plain : ∃ request request' : HttpRequest Empty,
    Returns (fun turns => deserialize turns (readJson 2 noneBeyond) .get
      (getText plainParam (by decide) (by decide)).bytes) request ∧
    request.queryString = plainParam.text ∧
    Returns (fun turns => deserialize turns (readJson 2 noneBeyond) .post
      (SentRequest.post plainParam.text).bytes) request' ∧
    request'.body = plainParam.text ∧
    ∀ name, request'.getBodyParamString name = .ok (request.getQueryParam name) := by
  obtain ⟨request, request', hquery, hqueryString, hbody, hbodyText⟩ :=
    exists_requests (δ := Empty) plainParam (by decide) (by decide) (by decide) (by decide)
  exact ⟨request, request', hquery, hqueryString, hbody, hbodyText,
    (sameAnswers_iff_agrees (by decide) hquery hqueryString rfl hbody hbodyText).mpr
      agrees_plainParam⟩

/-- A value with an equals sign, which the body cuts off. -/
def equalsParam : UrlEncoded := oneParam ['1', '=', '2'] (by simp)

theorem not_sameAnswers_equals : ∃ request request' : HttpRequest Empty,
    Returns (fun turns => deserialize turns (readJson 2 noneBeyond) .get
      (getText equalsParam (by decide) (by decide)).bytes) request ∧
    request.queryString = equalsParam.text ∧
    Returns (fun turns => deserialize turns (readJson 2 noneBeyond) .post
      (SentRequest.post equalsParam.text).bytes) request' ∧
    request'.body = equalsParam.text ∧
    ¬ ∀ name, request'.getBodyParamString name = .ok (request.getQueryParam name) := by
  obtain ⟨request, request', hquery, hqueryString, hbody, hbodyText⟩ :=
    exists_requests (δ := Empty) equalsParam (by decide) (by decide) (by decide) (by decide)
  refine ⟨request, request', hquery, hqueryString, hbody, hbodyText, fun hsame => ?_⟩
  have hfirst : request.getQueryParam ['a'] = ['1', '=', '2'] :=
    getQueryParam_eq (by decide) hquery hqueryString ['a']
  have hlast : request'.getBodyParamString ['a'] = .ok ['1'] :=
    getBodyParamString_eq (by decide) rfl hbody hbodyText ['a']
  have hname := hsame ['a']
  rw [hfirst, hlast] at hname
  cases hname

end OneParam

end UrlEncoded

end OrderBookServer
