import OrderBookServer.HttpReturns
import OrderBookServer.HttpTurns
import OrderBookServer.JsonNode
import OrderBookServer.RoundTrip

/-!
How the handlers read the fields of a body. A handle without a node is not like a handle whose
node holds a null: `has_field` follows the pointer without a test. The reader of JSON may leave no
node, and the readers of forms make one for a parameter.
-/
namespace OrderBookServer

open StdString

/-- The null pointer is followed, or a string is made of it, which throws. -/
inductive AccessFault
  | nullNode
  | nullString
deriving DecidableEq, Repr

namespace Json

variable {δ : Type}

def hasField : Json δ → Text → Except AccessFault Bool
  | .null, _ => throw .nullNode
  | .object members, field => pure (members.lookup field).isSome
  | _, _ => pure false

/-- What `operator[]` of a key refers to; the key ends at its first NUL. -/
def member : Json δ → Text → Json δ
  | .object members, key => (members.lookup (key.takeWhile fun c => c ≠ '\x00')).getD .null
  | _, _ => .null

/-- The conversion to `std::string`. -/
def asString : Json δ → Except AccessFault Text
  | .value (.string s) _ => pure s
  | .value .null _ => throw .nullString
  | _ => pure []

def fields : Json δ → List Text
  | .object members => members.map Prod.fst
  | _ => []

end Json

namespace HttpRequest

open Occurrences

variable {δ : Type}

def paramNoMissing : Text := "PARAM_NO_MISSING".toList

def missingBodyParam (field : Text) : Text :=
  "Missing body param: [".toList ++ field ++ "]".toList

/-- A class without a body keeps the getter of `HttpRequest`, here and below. -/
def getBodyJson (request : HttpRequest δ) : Json δ :=
  if request.method.isPost then request.bodyJson else .ofValue .null

def getBodyParamString (request : HttpRequest δ) (param : Text) : Except AccessFault Text :=
  if request.method.isPost then do
    if ← request.bodyJson.hasField param then (request.bodyJson.member param).asString
    else return paramNotFound
  else return []

def getBodyParamJson (request : HttpRequest δ) (param : Text) : Except AccessFault (Json δ) :=
  if request.method.isPost then do
    if ← request.bodyJson.hasField param then return request.bodyJson.member param
    else return .ofValue .null
  else return .ofValue .null

/-- The loop over the fields. -/
def checkMissingFields (bodyJson : Json δ) : List Text → Except AccessFault Text
  | [] => pure paramNoMissing
  | field :: fields => do
    if ← bodyJson.hasField field then checkMissingFields bodyJson fields
    else return missingBodyParam field

def checkMissingBodyParams (request : HttpRequest δ) (fields : List Text) :
    Except AccessFault Text :=
  if request.method.isPost then checkMissingFields request.bodyJson fields
  else return paramNoMissing

/-- No access follows a null pointer, and each says of a name that is no member that it is
missing. -/
structure Usable (request : HttpRequest δ) : Prop where
  reads : ∀ name, request.getBodyJson.hasField name ≠ .error .nullNode ∧
    request.getBodyParamString name ≠ .error .nullNode ∧
    request.getBodyParamJson name ≠ .error .nullNode
  checks : ∀ names, request.checkMissingBodyParams names ≠ .error .nullNode
  missing : ∀ name, name ∉ request.bodyJson.fields →
    request.getBodyJson.hasField name = .ok false ∧
    request.getBodyParamString name = .ok paramNotFound ∧
    request.getBodyParamJson name = .ok (.ofValue .null) ∧
    ∀ names, name ∈ names → ∃ field ∈ names, field ∉ request.bodyJson.fields ∧
      request.checkMissingBodyParams names = .ok (missingBodyParam field)

section Accesses

variable {request : HttpRequest δ} {json : Json δ} {name : Text}

theorem hasField_of_ne_null (h : json ≠ .null) (name : Text) :
    json.hasField name = .ok (decide (name ∈ json.fields)) := by
  cases json with
  | null => exact absurd rfl h
  | value v isStringFormat => simp [Json.hasField, Json.fields, pure, Except.pure]
  | array items => simp [Json.hasField, Json.fields, pure, Except.pure]
  | object members =>
    have hsome : (members.lookup name).isSome = decide (name ∈ members.map Prod.fst) := by
      rw [Bool.eq_iff_iff, List.lookup_isSome_iff, decide_eq_true_iff, List.mem_map]
      constructor
      · rintro ⟨e, he, heq⟩
        exact ⟨e, he, (beq_iff_eq.mp heq).symm⟩
      · rintro ⟨e, he, rfl⟩
        exact ⟨e, he, beq_self_eq_true _⟩
    simp only [Json.hasField, Json.fields, hsome]
    rfl

theorem asString_ne (json : Json δ) : json.asString ≠ .error .nullNode := by
  unfold Json.asString
  split <;> simp [pure, Except.pure, throw, throwThe, MonadExceptOf.throw]

/-- The first name that is no member is reported, if there is one. -/
theorem checkMissing_cases (h : json ≠ .null) (names : List Text) :
    ((∀ name ∈ names, name ∈ json.fields) ∧ checkMissingFields json names = .ok paramNoMissing) ∨
    ∃ field ∈ names, field ∉ json.fields ∧
      checkMissingFields json names = .ok (missingBodyParam field) := by
  induction names with
  | nil => exact Or.inl ⟨by simp, rfl⟩
  | cons name names ih =>
    by_cases hname : name ∈ json.fields
    · have hrun : checkMissingFields json (name :: names) = checkMissingFields json names := by
        simp only [checkMissingFields, hasField_of_ne_null h, hname, decide_true]
        rfl
      rw [hrun]
      rcases ih with ⟨hall, hnone⟩ | ⟨field, hmem, hfield, hmissing⟩
      · refine Or.inl ⟨fun name' hname' => ?_, hnone⟩
        rcases List.mem_cons.mp hname' with rfl | hname'
        · exact hname
        · exact hall name' hname'
      · exact Or.inr ⟨field, List.mem_cons_of_mem name hmem, hfield, hmissing⟩
    · refine Or.inr ⟨name, List.mem_cons_self .., hname, ?_⟩
      simp only [checkMissingFields, hasField_of_ne_null h, hname, decide_false]
      rfl

theorem usable_of_ne_null (hpost : request.method.isPost = true) (h : request.bodyJson ≠ .null) :
    request.Usable := by
  have hfield := hasField_of_ne_null h
  constructor
  · intro name
    refine ⟨?_, ?_, ?_⟩
    · rw [getBodyJson, if_pos hpost, hfield]
      simp
    · simp only [getBodyParamString, if_pos hpost, hfield]
      by_cases hname : name ∈ request.bodyJson.fields
      · simp only [hname, decide_true]
        exact asString_ne _
      · simp only [hname, decide_false]
        exact fun h => nomatch h
    · simp only [getBodyParamJson, if_pos hpost, hfield]
      by_cases hname : name ∈ request.bodyJson.fields
      · simp only [hname, decide_true]
        exact fun h => nomatch h
      · simp only [hname, decide_false]
        exact fun h => nomatch h
  · intro names
    rw [checkMissingBodyParams, if_pos hpost]
    rcases checkMissing_cases h names with ⟨_, hrun⟩ | ⟨field, _, _, hrun⟩
    · rw [hrun]
      exact fun h => nomatch h
    · rw [hrun]
      exact fun h => nomatch h
  · intro name hname
    refine ⟨?_, ?_, ?_, fun names hmem => ?_⟩
    · rw [getBodyJson, if_pos hpost, hfield]
      simp [hname]
    · simp only [getBodyParamString, if_pos hpost, hfield, hname, decide_false]
      rfl
    · simp only [getBodyParamJson, if_pos hpost, hfield, hname, decide_false]
      rfl
    · rw [checkMissingBodyParams, if_pos hpost]
      rcases checkMissing_cases h names with ⟨hall, _⟩ | hmissing
      · exact absurd (hall name hmem) hname
      · exact hmissing

theorem ne_null_of_usable (hpost : request.method.isPost = true) (h : request.Usable) :
    request.bodyJson ≠ .null := by
  intro hnull
  apply (h.reads []).1
  rw [getBodyJson, if_pos hpost, hnull]
  rfl

end Accesses

/-- `Json::parse` as the constructor calls it, with a bound on the number of nested turns. -/
def readJson [CharConv δ] (fuel : ℕ) (beyond : ℕ → Char) (text : Text) : Except Failure (Json δ) :=
  match JsonParse.parse ⟨text, beyond⟩ fuel JsonParse.initial with
  | .ok json _ => .ok json
  | .error .outOfRange _ => .error .outOfRange
  | .error .outOfFuel _ => .error .outOfFuel

/-- A form field, or a parameter with a value, is found in the body. -/
def HasParam (body : Text) : Prop :=
  -1 < toInt (find body keyFormat 0) ∨
    ∃ turns items, splitString turns body ['&'] = .ok items ∧
      ∃ item ∈ items, toInt (find item ['='] 0) ≠ -1

section Stages

variable {turns : ℕ} {body item str del : Text} {items pieces res : List Text} {stop : ℤ}
  {json json' : Json δ}

theorem length_lt_of_splitFrom (h : splitFrom str del turns stop res = .ok pieces) :
    res.length < pieces.length := by
  induction turns generalizing stop res with
  | zero => cases h
  | succ turns ih =>
    unfold splitFrom at h
    simp only at h
    split at h
    · obtain ⟨piece, _, h⟩ := bind_eq_ok h
      have := ih h
      rw [List.length_append] at this
      omega
    · obtain ⟨piece, _, h⟩ := bind_eq_ok h
      cases h
      simp

/-- A text has two pieces where the delimiter is found. -/
theorem two_le_length_iff (h : splitString turns item ['='] = .ok pieces) :
    2 ≤ pieces.length ↔ toInt (find item ['='] 0) ≠ -1 := by
  cases turns with
  | zero => cases h
  | succ turns =>
    unfold splitString splitFrom at h
    have hstart : toInt (sizeT (toInt (-1 * (['='] : Text).length)) + (['='] : Text).length) = 0 :=
      rfl
    have hzero : sizeT 0 = 0 := rfl
    simp only [hstart, hzero] at h
    split at h
    · rename_i hfound
      obtain ⟨piece, _, h⟩ := bind_eq_ok h
      have := length_lt_of_splitFrom h
      simp only [List.nil_append, List.length_singleton] at this
      exact iff_of_true this hfound
    · rename_i hnone
      obtain ⟨piece, _, h⟩ := bind_eq_ok h
      cases h
      exact iff_of_false (by simp) hnone

theorem rawDataFrom_eq_null_iff (h : rawDataFrom turns items json = .ok json') :
    json' = .null ↔ json = .null ∧ ∀ item ∈ items, toInt (find item ['='] 0) = -1 := by
  induction items generalizing json with
  | nil =>
    cases h
    simp
  | cons item items ih =>
    unfold rawDataFrom at h
    obtain ⟨pieces, hpieces, h⟩ := bind_eq_ok h
    have htwo := two_le_length_iff hpieces
    cases pieces with
    | nil =>
      rw [ih h]
      simp at htwo
      simp [htwo]
    | cons key rest =>
      cases rest with
      | nil =>
        rw [ih h]
        simp at htwo
        simp [htwo]
      | cons value rest =>
        rw [ih h]
        simp at htwo
        simp [htwo, Json.setKey_ne_null]

theorem formDataFrom_ne_null {frameFormat : Text} {start : ℤ} (hne : json ≠ .null)
    (h : formDataFrom body frameFormat turns start json = .ok json') : json' ≠ .null := by
  induction turns generalizing start json with
  | zero => cases h
  | succ turns ih =>
    unfold formDataFrom at h
    simp only at h
    split at h
    · obtain ⟨key, _, h⟩ := bind_eq_ok h
      obtain ⟨value, _, h⟩ := bind_eq_ok h
      exact ih (Json.setKey_ne_null _ _ _) h
    · cases h
      exact hne

theorem formData_eq_null_iff (h : deserializeBodyFormData turns body json = .ok json') :
    json' = .null ↔ json = .null ∧ ¬ -1 < toInt (find body keyFormat 0) := by
  unfold deserializeBodyFormData at h
  simp only at h
  split at h
  · rename_i hfound
    obtain ⟨frameFormat, _, h⟩ := bind_eq_ok h
    refine iff_of_false ?_ fun hnone => hnone.2 hfound
    cases turns with
    | zero => cases h
    | succ turns =>
      unfold formDataFrom at h
      have hzero : sizeT 0 = 0 := rfl
      simp only [hzero, if_pos hfound] at h
      obtain ⟨key, _, h⟩ := bind_eq_ok h
      obtain ⟨value, _, h⟩ := bind_eq_ok h
      exact formDataFrom_ne_null (Json.setKey_ne_null _ _ _) h
  · rename_i hnone
    cases h
    simp [hnone]

theorem splitString_unique {turns' : ℕ} {items' : List Text}
    (h : splitString turns str del = .ok items) (h' : splitString turns' str del = .ok items') :
    items = items' := by
  rcases Nat.le_total turns turns' with hle | hle
  · rcases splitString_refines str del hle with hnone | hsame
    · rw [h] at hnone
      cases hnone
    · rw [h, h'] at hsame
      exact (Except.ok.inj hsame).symm
  · rcases splitString_refines str del hle with hnone | hsame
    · rw [h'] at hnone
      cases hnone
    · rw [h, h'] at hsame
      exact Except.ok.inj hsame

/-- The readers of forms leave no node where they are given none and find no parameter. -/
theorem forms_eq_null_iff {withForm : Json δ}
    (hform : deserializeBodyFormData turns body json = .ok withForm)
    (hraw : deserializeBodyRawData turns body withForm = .ok json') :
    json' = .null ↔ json = .null ∧ ¬ HasParam body := by
  have hnull := formData_eq_null_iff hform
  unfold deserializeBodyRawData at hraw
  by_cases hwith : withForm = .null
  · obtain ⟨hjson, hnone⟩ := hnull.mp hwith
    rw [hwith] at hraw
    obtain ⟨items, hitems, hraw⟩ := bind_eq_ok hraw
    rw [rawDataFrom_eq_null_iff hraw]
    constructor
    · rintro ⟨_, hitem⟩
      refine ⟨hjson, fun hparam => ?_⟩
      rcases hparam with hfound | ⟨turns', items', hitems', item, hmem, hfound⟩
      · exact hnone hfound
      · rw [← splitString_unique hitems hitems'] at hmem
        exact hfound (hitem item hmem)
    · rintro ⟨_, hparam⟩
      refine ⟨rfl, fun item hmem => ?_⟩
      by_contra hfound
      exact hparam (Or.inr ⟨turns, items, hitems, item, hmem, hfound⟩)
  · have hjson' : json' ≠ .null := by
      split at hraw
      · obtain ⟨items, hitems, hraw⟩ := bind_eq_ok hraw
        intro heq
        exact hwith ((rawDataFrom_eq_null_iff hraw).mp heq).1
      · cases hraw
        exact hwith
    refine iff_of_false hjson' fun h => hwith (hnull.mpr ⟨h.1, fun hfound => h.2 (Or.inl hfound)⟩)

/-- In a body that an `int` can index, a parameter is there with the character before a value. -/
theorem hasParam_iff (hshort : body.length < 2147483648) : HasParam body ↔ '=' ∈ body := by
  have hfind : ∀ item : Text, item.length ≤ body.length →
      (toInt (find item ['='] 0) ≠ -1 ↔ '=' ∈ item) := by
    intro item hitem
    cases hindex : indexOf ['='] item with
    | none =>
      have hnot := indexOf_singleton_eq_none_iff.mp hindex
      have hfind : find item ['='] 0 = npos := find_of_none hindex
      simp [hfind, hnot]
    | some i =>
      have hle := add_length_le_of_indexOf hindex
      have hfind : find item ['='] 0 = 0 + i := find_of_some (Nat.zero_le _) hindex
      have hmem : '=' ∈ item := by
        by_contra hnot
        rw [indexOf_singleton_eq_none_iff.mpr hnot] at hindex
        cases hindex
      refine iff_of_true ?_ hmem
      rw [hfind, toInt_of_lt (by omega) (by omega)]
      omega
  constructor
  · rintro (hform | ⟨turns, items, hitems, item, hmem, hfound⟩)
    · cases hindex : indexOf keyFormat body with
      | none =>
        have hnone : find body keyFormat 0 = npos := find_of_none hindex
        rw [hnone] at hform
        cases hform
      | some i =>
        obtain ⟨_, hat, _⟩ := indexOf_eq_some_iff.mp hindex
        exact List.mem_of_mem_drop (hat.subset (by decide))
    · have heq : items = splitOn ['&'] body := by
        apply splitString_unique hitems
        exact splitString_eq (by decide) hshort (Nat.lt_succ_self _)
      rw [heq] at hmem
      exact subset_of_mem_splitOn hmem
        ((hfind item (length_le_of_mem_splitOn hmem)).mp hfound)
  · intro hmem
    have hother : '=' ∉ ['&'] := by decide
    obtain ⟨item, hitem, hmem⟩ := exists_mem_splitOn hmem hother
    exact Or.inr ⟨_, _, splitString_eq (by decide) hshort (Nat.lt_succ_self _), item, hitem,
      (hfind item (length_le_of_mem_splitOn hitem)).mpr hmem⟩

end Stages

section Constructed

variable [CharConv δ] {fuel turns : ℕ} {beyond : ℕ → Char} {method : RequestMethod}
  {content : Text} {request : HttpRequest δ}

theorem readJson_eq_null_iff {text : Text} {json : Json δ}
    (h : readJson fuel beyond text = .ok json) :
    json = .null ↔ JsonParse.startsEmpty text = true := by
  unfold readJson at h
  split at h
  · rename_i json' s hrun
    cases h
    exact JsonParse.parse_eq_null_iff hrun
  · cases h
  · cases h

/-- The body of a constructed request has no node exactly where no parameter is found in it and
its first container is empty. -/
theorem bodyJson_eq_null_iff (hpost : method.isPost = true)
    (h : deserialize turns (readJson fuel beyond) method content = .ok request) :
    request.bodyJson = .null ↔
      JsonParse.startsEmpty request.body = true ∧ ¬ HasParam request.body := by
  obtain ⟨json, withForm, hjson, hform, hraw⟩ := stages_of_deserialize hpost h
  exact (forms_eq_null_iff hform hraw).trans
    (and_congr_left fun _ => readJson_eq_null_iff hjson)

/-- A constructed request is usable exactly where a parameter is found in its body or the first
container of the body is not empty. -/
theorem usable_iff_hasParam (hpost : method.isPost = true)
    (h : deserialize turns (readJson fuel beyond) method content = .ok request) :
    request.Usable ↔ HasParam request.body ∨ JsonParse.startsEmpty request.body = false := by
  have hnull := bodyJson_eq_null_iff hpost h
  rw [← method_of_deserialize h] at hpost
  constructor
  · intro husable
    by_contra hnot
    simp only [not_or, Bool.not_eq_false] at hnot
    exact ne_null_of_usable hpost husable (hnull.mpr ⟨hnot.2, hnot.1⟩)
  · intro hcond
    apply usable_of_ne_null hpost
    intro heq
    obtain ⟨hempty, hnone⟩ := hnull.mp heq
    rcases hcond with hparam | hfull
    · exact hnone hparam
    · rw [hempty] at hfull
      cases hfull

end Constructed

section StartStreaming

/-- What a client sends to start the stream, with a body. -/
def startRequest (body : Text) : Text :=
  "POST /start_streaming_orderbook HTTP/1.1\r\n\r\n".toList ++ body

def noneBeyond : ℕ → Char := fun _ => '\x00'

theorem exists_startRead (body : Text) (fuel : ℕ) (hbody : bodyOf (startRequest body) = body)
    (hshort : (startRequest body).length < 2147483648)
    (hblank : findFirstOf (startRequest body) [' '] 0 < (startRequest body).length)
    (hstart : headerStart (startRequest body) ≤ (startRequest body).length)
    (hjson : ∃ json : Json Empty, readJson fuel noneBeyond body = .ok json)
    (hform : indexOf keyFormat body = none) : ∃ turns request,
      deserialize turns (readJson fuel noneBeyond : Text → Except Failure (Json Empty)) .post
        (startRequest body) = .ok request ∧ request.body = body := by
  have hfits : Fits .post (startRequest body) := .of_length hshort
  have hthree : 3 ≤ (startRequest body).length := by
    have hlength : (startRequest body).length = 44 + body.length := List.length_append
    omega
  have hforms : FormReads (bodyOf (startRequest body)) := by
    intro i hi
    rw [hbody, hform] at hi
    cases hi
  have hparse : ∃ json : Json Empty,
      readJson fuel noneBeyond (bodyOf (startRequest body)) = .ok json := by
    rw [hbody]
    exact hjson
  obtain ⟨request, hreturns⟩ := deserialize_returns (fun _ => hparse) hfits hblank hthree hstart
    fun _ => hforms
  obtain ⟨hfrom, hmethod⟩ := readFrom_of_returns hfits hthree hreturns
  obtain ⟨turns, hrun⟩ := hreturns.exists_ok
  refine ⟨turns, request, hrun, ?_⟩
  rw [hfrom.body, hmethod, hbody]
  rfl

/-- What the handler of the stream asks for. -/
def speedText : Text := "\x7b\"speed\":2\x7d".toList

def speedTree : Json Empty := .object [("speed".toList, .value (.int64 2) true)]

theorem readJson_speedText : ∃ json : Json Empty, readJson 11 noneBeyond speedText = .ok json := by
  have hprintable : speedTree.Printable := by
    simp [speedTree, Json.Printable, Json.PrintableMembers, Json.PrintableValue]
  have hnone : Json.Blank [] := fun c hc => absurd hc List.not_mem_nil
  have hspread : Json.Spread speedTree.tokens speedText :=
    ⟨[], _, rfl, hnone, [], _, rfl, hnone, [], _, rfl, hnone, [], _, rfl, hnone, [], _, rfl,
      hnone, hnone⟩
  have hreads : JsonParse.Reads ⟨speedText, noneBeyond⟩
      (JsonParse.parse ⟨speedText, noneBeyond⟩ 11) speedTree.reread :=
    JsonParse.reads_parse hprintable trivial hspread (Nat.le_refl 11)
  obtain ⟨s, hrun, _⟩ := hreads JsonParse.initial rfl
  refine ⟨speedTree.reread, ?_⟩
  unfold readJson
  rw [hrun]

/-- The body has a member that the handler asks for. -/
theorem usable_iff_hasParam_speed : ∃ turns request,
    deserialize turns (readJson 11 noneBeyond : Text → Except Failure (Json Empty)) .post
      (startRequest speedText) = .ok request ∧ request.body = speedText ∧ request.Usable := by
  obtain ⟨turns, request, hrun, hbody⟩ := exists_startRead speedText 11 (by decide) (by decide)
    (by decide) (by decide) readJson_speedText (by decide)
  refine ⟨turns, request, hrun, hbody, (usable_iff_hasParam rfl hrun).mpr (Or.inr ?_)⟩
  rw [hbody]
  decide

theorem readJson_emptyObject : ∃ json : Json Empty,
    readJson 1 noneBeyond ['{', '}'] = .ok json := by
  have hrun : JsonParse.parse ⟨['{', '}'], noneBeyond⟩ 1 JsonParse.initial =
      (JsonParse.parseObject ⟨['{', '}'], noneBeyond⟩ 1 (.null : Json Empty) 1 >>=
        JsonParse.finish) ⟨true, 1, [], []⟩ := rfl
  have hbyte : Input.byte ⟨['{', '}'], noneBeyond⟩ 1 = '}' := rfl
  obtain ⟨s, _, _, _, hclose⟩ :=
    JsonParse.parseObject_close hbyte (.null : Json Empty) ⟨true, 1, [], []⟩
  obtain ⟨json, hfinish⟩ := JsonParse.finish_ok (.null, 2) s
  rw [JsonParse.bind_ok (hclose 0), hfinish] at hrun
  refine ⟨json, ?_⟩
  unfold readJson
  rw [hrun]

/-- The body is an empty object: the handler asks for the speed at a null pointer. -/
theorem not_usable_emptyObject : ∃ turns request,
    deserialize turns (readJson 1 noneBeyond : Text → Except Failure (Json Empty)) .post
      (startRequest ['{', '}']) = .ok request ∧ ¬ request.Usable := by
  obtain ⟨turns, request, hrun, hbody⟩ := exists_startRead ['{', '}'] 1 (by decide) (by decide)
    (by decide) (by decide) readJson_emptyObject rfl
  refine ⟨turns, request, hrun, fun husable => ?_⟩
  apply ne_null_of_usable (by rw [method_of_deserialize hrun]; rfl) husable
  rw [bodyJson_eq_null_iff rfl hrun, hbody, hasParam_iff (by decide)]
  exact ⟨rfl, by decide⟩

end StartStreaming

end HttpRequest

end OrderBookServer
