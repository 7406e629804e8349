import OrderBookServer.HttpBody

/-!
When the reading of a request returns. A text may end in the first end of a line, a length may
not be a number of 32 bits, and form data may keep the loop over it or lead it out of the text.
-/
namespace OrderBookServer.HttpRequest

open StdString Occurrences

variable {δ : Type} {parse : Text → Except Failure (Json δ)} {method : RequestMethod}
  {request : HttpRequest δ} {content : Text} {turns : ℕ}

/-- The method in front of the first blank. -/
def methodOf (content : Text) : Option RequestMethod :=
  (content.findIdx? fun c => c ∈ [' ']).bind fun i =>
    RequestMethod.requestMethodMap (content.take i)

/-- The length that the headers give, in either spelling. -/
def declaredLength (content : Text) : Option Text :=
  (((headersOf content).lookup "Content-Length".toList).filter fun v => v ≠ paramNotFound).or
    (((headersOf content).lookup "content-length".toList).filter fun v => v ≠ paramNotFound)

/-- The length that the headers give, if any, is a number of 32 bits. -/
def LengthReads (content : Text) : Prop :=
  ∀ text, declaredLength content = some text →
    ∃ x, strtol text = some x ∧ -2147483648 ≤ x ∧ x ≤ 2147483647

/-- A string of the library in whose parts no position is lost in an `int`. -/
structure Fits (method : RequestMethod) (content : Text) : Prop where
  text : content.length < 9223372036854775808
  url : ∀ url, deserializeUrl content = .ok url → url.length < 2147483648
  headers : (headerSection content).length < 2147483648
  body : method.isPost → (bodyOf content).length < 2147483648

/-- What the stages have read when they returned. -/
structure ReadFrom (content : Text) (request : HttpRequest δ) : Prop where
  url : ∃ url, deserializeUrl content = .ok url ∧
    deserializeQueryString url = .ok (request.url, request.queryString)
  start : headerStart content ≤ content.length
  headerParams : request.headerParams = insertAll [] (headersOf content)
  body : request.body = if request.method.isPost then bodyOf content else []
  form : request.method.isPost → FormReads request.body

section Method

theorem requestMethodMap_length {name : Text}
    (h : RequestMethod.requestMethodMap name = some method) : 3 ≤ name.length := by
  unfold RequestMethod.requestMethodMap at h
  repeat' split at h
  all_goals first | (rename_i heq; rw [heq]; decide) | cases h

/-- A text with a known method has its first blank inside. -/
theorem blank_of_methodOf (h : methodOf content = some method) :
    findFirstOf content [' '] 0 < content.length ∧ 4 ≤ content.length := by
  obtain ⟨i, hi, hname⟩ := Option.bind_eq_some_iff.mp h
  have hdrop : content.drop 0 = content := List.drop_zero
  obtain ⟨hlt, _⟩ := List.findIdx?_eq_some_iff_getElem.mp hi
  have hthree := requestMethodMap_length hname
  rw [List.length_take] at hthree
  rw [findFirstOf_of_some (Nat.zero_le _) (by rw [hdrop, hi]), Nat.zero_add]
  constructor
  · exact hlt
  · omega

theorem createNewHttpRequest_eq (hsize : content.length < 9223372036854775808) :
    createNewHttpRequest turns parse content = match methodOf content with
      | none => .ok none
      | some method => deserialize turns parse method content >>= fun request =>
          .ok (some request) := by
  have hdrop : content.drop 0 = content := List.drop_zero
  unfold createNewHttpRequest methodOf
  cases hfind : content.findIdx? fun c => c ∈ [' '] with
  | none =>
    rw [findFirstOf_of_none (by rw [hdrop, hfind])]
    rfl
  | some i =>
    obtain ⟨hlt, _⟩ := List.findIdx?_eq_some_iff_getElem.mp hfind
    have hne : i ≠ npos := by
      unfold npos
      omega
    rw [findFirstOf_of_some (Nat.zero_le _) (by rw [hdrop, hfind]), Nat.zero_add]
    simp only [if_neg hne, substr_of_le (Nat.zero_le _), hdrop, ok_bind, Option.bind_some]
    cases RequestMethod.requestMethodMap (content.take i) with
    | none => rfl
    | some method => rfl

end Method

section Stages

theorem length_bodyOf_le (content : Text) : (bodyOf content).length ≤ content.length := by
  unfold bodyOf
  split
  · rw [List.length_drop]
    omega
  · rw [List.length_drop]
    omega

/-- The body of a class that has one is read with the form data in it. -/
theorem bodyOf_of_ok {body : Text} {json : Json δ} (hfits : Fits method content)
    (hthree : 3 ≤ content.length)
    (h : deserializeBodyOf turns parse method content = .ok (body, json)) :
    body = (if method.isPost then bodyOf content else []) ∧
      (method.isPost → FormReads body) := by
  unfold deserializeBodyOf at h
  split at h
  · rename_i hpost
    rw [deserializeBody_eq hfits.text hthree, ok_bind] at h
    obtain ⟨parsed, _, h⟩ := bind_eq_ok h
    obtain ⟨withForm, hform, h⟩ := bind_eq_ok h
    obtain ⟨withRaw, _, h⟩ := bind_eq_ok h
    obtain ⟨rfl, rfl⟩ := Prod.mk.inj (Except.ok.inj h)
    exact ⟨(if_pos hpost).symm, fun _ => formReads_of_ok (hfits.body hpost) hform⟩
  · rename_i hpost
    obtain ⟨rfl, rfl⟩ := Prod.mk.inj (Except.ok.inj h)
    exact ⟨(if_neg hpost).symm, fun h => absurd h hpost⟩

theorem readFrom_of_returns (hfits : Fits method content) (hthree : 3 ≤ content.length)
    (h : Returns (fun turns => deserialize turns parse method content) request) :
    ReadFrom content request ∧ request.method = method := by
  obtain ⟨n, hn⟩ := h
  have hok := hn (max n (content.length + 1)) (by omega)
  have hturns : content.length < max n (content.length + 1) := by omega
  generalize max n (content.length + 1) = turns at hok hturns
  unfold deserialize at hok
  obtain ⟨target, htarget, hok⟩ := bind_eq_ok hok
  obtain ⟨⟨url, queryString⟩, hurl, hok⟩ := bind_eq_ok hok
  obtain ⟨queryParams, _, hok⟩ := bind_eq_ok hok
  obtain ⟨headerParams, hheaders, hok⟩ := bind_eq_ok hok
  obtain ⟨⟨body, bodyJson⟩, hbody, hok⟩ := bind_eq_ok hok
  obtain rfl := Except.ok.inj hok
  have hstart : headerStart content ≤ content.length := by
    by_contra hlt
    rw [deserializeHeaderParams_of_lt hfits.text (by omega)] at hheaders
    cases hheaders
  rw [deserializeHeaderParams_eq hfits.text hfits.headers hturns hstart] at hheaders
  obtain ⟨hbodyOf, hform⟩ := bodyOf_of_ok hfits hthree hbody
  exact ⟨⟨⟨target, htarget, hurl⟩, hstart, (Except.ok.inj hheaders).symm, hbodyOf, hform⟩, rfl⟩

/-- The readers of forms are given what the reader of JSON leaves. -/
theorem deserializeBodyOf_of_post (hpost : method.isPost = true)
    (hsize : content.length < 9223372036854775808) (hthree : 3 ≤ content.length) :
    deserializeBodyOf turns parse method content =
      parse (bodyOf content) >>= fun json =>
        deserializeBodyFormData turns (bodyOf content) json >>= fun json =>
          deserializeBodyRawData turns (bodyOf content) json >>= fun json =>
            .ok (bodyOf content, json) := by
  unfold deserializeBodyOf
  rw [if_pos hpost, deserializeBody_eq hsize hthree, ok_bind]
  rfl

theorem deserializeBodyOf_returns
    (hparse : method.isPost → ∃ json, parse (bodyOf content) = .ok json)
    (hfits : Fits method content) (hthree : 3 ≤ content.length)
    (hform : method.isPost → FormReads (bodyOf content)) :
    ∃ res, Returns (fun turns => deserializeBodyOf turns parse method content) res := by
  by_cases hpost : method.isPost = true
  · obtain ⟨parsed, hparsed⟩ := hparse hpost
    have hshort := hfits.body hpost
    obtain ⟨withForm, hwithForm⟩ := formData_returns hshort (hform hpost) parsed
    obtain ⟨withRaw, hwithRaw⟩ := rawData_returns hshort withForm
    simp only [deserializeBodyOf_of_post hpost hfits.text hthree, hparsed, ok_bind]
    exact ⟨_, hwithForm.bind (hwithRaw.bind (Returns.pure _))⟩
  · simp only [deserializeBodyOf, if_neg hpost]
    exact ⟨_, Returns.pure _⟩

/-- A request is constructed where its body is read. -/
theorem deserialize_returns_of_body {body : Text} {json : Json δ} (hfits : Fits method content)
    (hblank : findFirstOf content [' '] 0 < content.length)
    (hstart : headerStart content ≤ content.length)
    (hbody : Returns (fun turns => deserializeBodyOf turns parse method content) (body, json)) :
    ∃ request, Returns (fun turns => deserialize turns parse method content) request ∧
      request.body = body ∧ request.bodyJson = json := by
  obtain ⟨target, htarget⟩ := deserializeUrl_ok hfits.text hblank
  have hshort := hfits.url target htarget
  obtain ⟨url, queryString, hurl, hle⟩ := deserializeQueryString_ok hshort
  obtain ⟨queryParams, hquery⟩ : ∃ res,
      Returns (fun turns => deserializeQueryParams turns queryString) res :=
    deserializeQueryParams_returns (by omega)
  have hheaders : Returns (fun turns => deserializeHeaderParams turns content) _ :=
    ⟨content.length + 1, fun turns hturns =>
      deserializeHeaderParams_eq hfits.text hfits.headers hturns hstart⟩
  unfold deserialize
  simp only [htarget, hurl, ok_bind]
  exact ⟨_, hquery.bind (hheaders.bind (hbody.bind (Returns.pure _))), rfl, rfl⟩

theorem deserialize_returns
    (hparse : method.isPost → ∃ json, parse (bodyOf content) = .ok json)
    (hfits : Fits method content) (hblank : findFirstOf content [' '] 0 < content.length)
    (hthree : 3 ≤ content.length) (hstart : headerStart content ≤ content.length)
    (hform : method.isPost → FormReads (bodyOf content)) :
    ∃ request, Returns (fun turns => deserialize turns parse method content) request := by
  obtain ⟨⟨body, json⟩, hbody⟩ := deserializeBodyOf_returns hparse hfits hthree hform
  obtain ⟨request, hread, _⟩ := deserialize_returns_of_body hfits hblank hstart hbody
  exact ⟨request, hread⟩

/-- What the stage that reads the body has left in a constructed request. -/
theorem body_of_deserialize (h : deserialize turns parse method content = .ok request) :
    deserializeBodyOf turns parse method content = .ok (request.body, request.bodyJson) := by
  unfold deserialize at h
  obtain ⟨url, _, h⟩ := bind_eq_ok h
  obtain ⟨⟨url, queryString⟩, _, h⟩ := bind_eq_ok h
  obtain ⟨queryParams, _, h⟩ := bind_eq_ok h
  obtain ⟨headerParams, _, h⟩ := bind_eq_ok h
  obtain ⟨⟨body, bodyJson⟩, hbody, h⟩ := bind_eq_ok h
  obtain rfl := Except.ok.inj h
  exact hbody

theorem method_of_deserialize (h : deserialize turns parse method content = .ok request) :
    request.method = method := by
  unfold deserialize at h
  obtain ⟨url, _, h⟩ := bind_eq_ok h
  obtain ⟨⟨url, queryString⟩, _, h⟩ := bind_eq_ok h
  obtain ⟨queryParams, _, h⟩ := bind_eq_ok h
  obtain ⟨headerParams, _, h⟩ := bind_eq_ok h
  obtain ⟨⟨body, bodyJson⟩, _, h⟩ := bind_eq_ok h
  obtain rfl := Except.ok.inj h
  rfl

/-- The three readers of a body, one after the other. -/
theorem stages_of_deserialize (hpost : method.isPost = true)
    (h : deserialize turns parse method content = .ok request) : ∃ json withForm,
      parse request.body = .ok json ∧
      deserializeBodyFormData turns request.body json = .ok withForm ∧
      deserializeBodyRawData turns request.body withForm = .ok request.bodyJson := by
  have hbody := body_of_deserialize h
  unfold deserializeBodyOf at hbody
  rw [if_pos hpost] at hbody
  obtain ⟨body, _, hbody⟩ := bind_eq_ok hbody
  obtain ⟨json, hjson, hbody⟩ := bind_eq_ok hbody
  obtain ⟨withForm, hform, hbody⟩ := bind_eq_ok hbody
  obtain ⟨withRaw, hraw, hbody⟩ := bind_eq_ok hbody
  obtain ⟨rfl, rfl⟩ := Prod.mk.inj (Except.ok.inj hbody)
  exact ⟨json, withForm, hjson, hform, hraw⟩

theorem queryParams_of_deserialize (h : deserialize turns parse method content = .ok request) :
    deserializeQueryParams turns request.queryString = .ok request.queryParams := by
  unfold deserialize at h
  obtain ⟨url, _, h⟩ := bind_eq_ok h
  obtain ⟨⟨url, queryString⟩, _, h⟩ := bind_eq_ok h
  obtain ⟨queryParams, hquery, h⟩ := bind_eq_ok h
  obtain ⟨headerParams, _, h⟩ := bind_eq_ok h
  obtain ⟨⟨body, bodyJson⟩, _, h⟩ := bind_eq_ok h
  obtain rfl := Except.ok.inj h
  exact hquery

end Stages

/-- A text shorter than 2 GiB. -/
theorem Fits.of_length (hsize : content.length < 2147483648) : Fits method content where
  text := by omega
  url _ hurl := Nat.lt_of_le_of_lt (length_le_of_deserializeUrl hurl) hsize
  headers := Nat.lt_of_le_of_lt (length_headerSection_le content) hsize
  body _ := Nat.lt_of_le_of_lt (length_bodyOf_le content) hsize

section Length

theorem contentLength_eq (hparams : request.headerParams = insertAll [] (headersOf content)) :
    request.contentLength = match declaredLength content with
      | some text => stoi text
      | none => .ok 0 := by
  unfold contentLength declaredLength
  simp only [getHeaderParam_eq hparams]
  generalize (headersOf content).lookup "Content-Length".toList = first
  generalize (headersOf content).lookup "content-length".toList = second
  have hkept : ∀ {found : Option Text}, found.getD paramNotFound ≠ paramNotFound →
      (found.filter fun v => v ≠ paramNotFound) = some (found.getD paramNotFound) := by
    intro found hne
    cases found with
    | none => exact absurd rfl hne
    | some value => simpa [Option.filter] using hne
  have hlost : ∀ {found : Option Text}, ¬ found.getD paramNotFound ≠ paramNotFound →
      (found.filter fun v => v ≠ paramNotFound) = none := by
    intro found heq
    cases found with
    | none => rfl
    | some value => simpa [Option.filter] using heq
  split
  · rename_i hfirst
    rw [hkept hfirst, Option.some_or]
  · rename_i hfirst
    rw [hlost hfirst, Option.none_or]
    split
    · rename_i hsecond
      rw [hkept hsecond]
    · rename_i hsecond
      rw [hlost hsecond]

/-- A request that has been read is judged unless the length in its headers cannot be. -/
theorem isValidFormat_ok_iff (hparams : request.headerParams = insertAll [] (headersOf content)) :
    (∃ valid, request.isValidFormat = .ok valid) ↔
      (request.method.isPost → LengthReads content) := by
  unfold isValidFormat
  split
  · rename_i hpost
    rw [contentLength_eq hparams]
    unfold LengthReads
    cases declaredLength content with
    | none => simp [hpost, Pure.pure, Except.pure]
    | some text =>
      constructor
      · rintro ⟨valid, hvalid⟩ _ text' htext
        obtain rfl := Option.some.inj htext
        obtain ⟨x, hx, _⟩ := bind_eq_ok hvalid
        exact ⟨x, stoi_ok_iff.mp hx⟩
      · intro hreads
        obtain ⟨x, hx⟩ := hreads hpost text rfl
        have hok := stoi_ok_iff.mpr hx
        simp only [hok, ok_bind]
        exact ⟨_, rfl⟩
  · rename_i hpost
    exact ⟨fun _ h => absurd h hpost, fun _ => ⟨true, rfl⟩⟩

end Length

section Outcome

theorem readMessage_of_none (hsize : content.length < 9223372036854775808)
    (hmethod : methodOf content = none) : readMessage turns parse content = .ok none := by
  unfold readMessage
  rw [createNewHttpRequest_eq hsize, hmethod]
  rfl

theorem readMessage_of_some (hsize : content.length < 9223372036854775808)
    (hmethod : methodOf content = some method) :
    readMessage turns parse content =
      deserialize turns parse method content >>= fun request =>
        request.isValidFormat >>= fun valid => .ok (some (request, valid)) := by
  have hcreate : createNewHttpRequest turns parse content =
      deserialize turns parse method content >>= fun request => .ok (some request) := by
    rw [createNewHttpRequest_eq hsize, hmethod]
  unfold readMessage
  rw [hcreate]
  cases deserialize turns parse method content with
  | error e => rfl
  | ok request => rfl

/-- What was read and judged was read. -/
theorem deserialize_of_returns (hsize : content.length < 9223372036854775808)
    (hmethod : methodOf content = some method) {result : Option (HttpRequest δ × Bool)}
    (h : Returns (fun turns => readMessage turns parse content) result) :
    ∃ request valid, result = some (request, valid) ∧
      Returns (fun turns => deserialize turns parse method content) request ∧
      request.isValidFormat = .ok valid := by
  obtain ⟨n, hn⟩ := h
  simp only [readMessage_of_some hsize hmethod] at hn
  obtain ⟨request, _, hok⟩ := bind_eq_ok (hn n (Nat.le_refl n))
  obtain ⟨valid, hvalid, hok⟩ := bind_eq_ok hok
  obtain rfl := Except.ok.inj hok
  refine ⟨request, valid, rfl, ⟨n, fun turns hturns => ?_⟩, hvalid⟩
  obtain ⟨request', hrequest, hok⟩ := bind_eq_ok (hn turns hturns)
  obtain ⟨valid', _, hok⟩ := bind_eq_ok hok
  obtain ⟨rfl, _⟩ := Prod.mk.inj (Option.some.inj (Except.ok.inj hok))
  exact hrequest

theorem readMessage_returns (hsize : content.length < 9223372036854775808)
    (hmethod : methodOf content = some method)
    (hread : Returns (fun turns => deserialize turns parse method content) request) {valid : Bool}
    (hvalid : request.isValidFormat = .ok valid) :
    Returns (fun turns => readMessage turns parse content) (some (request, valid)) := by
  simp only [readMessage_of_some hsize hmethod]
  apply hread.bind
  simp only [hvalid, ok_bind]
  exact Returns.pure _

/-- Where no position is lost in an `int`, a message of a known method is read and judged exactly
when its first end of a line is not its last character and, for a class with a body, the length
in its headers is a number of 32 bits and the loop over form data ends inside the body. -/
theorem returns_iff_wellEnded (hparse : ∀ body, ∃ json, parse body = .ok json)
    (hsize : content.length < 9223372036854775808)
    (hfits : ∀ method, methodOf content = some method → Fits method content) :
    (∃ result, Returns (fun turns => readMessage turns parse content) result ∧
      (result = none ↔ methodOf content = none)) ↔
    ∀ method, methodOf content = some method → headerStart content ≤ content.length ∧
      (method.isPost → LengthReads content ∧ FormReads (bodyOf content)) := by
  constructor
  · rintro ⟨result, hresult, _⟩ method hmethod
    obtain ⟨_, hfour⟩ := blank_of_methodOf hmethod
    have hthree : 3 ≤ content.length := by omega
    obtain ⟨request, valid, _, hread, hvalid⟩ := deserialize_of_returns hsize hmethod hresult
    obtain ⟨hfrom, rfl⟩ := readFrom_of_returns (hfits _ hmethod) hthree hread
    refine ⟨hfrom.start, fun hpost => ?_⟩
    have hbody := hfrom.body
    rw [if_pos hpost] at hbody
    have hlength := (isValidFormat_ok_iff hfrom.headerParams).mp ⟨valid, hvalid⟩
    exact ⟨hlength hpost, hbody ▸ hfrom.form hpost⟩
  · intro hended
    cases hmethod : methodOf content with
    | none =>
      exact ⟨none, ⟨0, fun turns _ => readMessage_of_none hsize hmethod⟩, by simp⟩
    | some method =>
      obtain ⟨hblank, hfour⟩ := blank_of_methodOf hmethod
      have hthree : 3 ≤ content.length := by omega
      obtain ⟨hstart, hbody⟩ := hended method hmethod
      obtain ⟨request, hread⟩ := deserialize_returns (fun _ => hparse _) (hfits _ hmethod)
        hblank hthree hstart fun hpost => (hbody hpost).2
      obtain ⟨hfrom, rfl⟩ := readFrom_of_returns (hfits _ hmethod) hthree hread
      obtain ⟨valid, hvalid⟩ := (isValidFormat_ok_iff hfrom.headerParams).mpr
        fun hpost => (hbody hpost).1
      exact ⟨some (request, valid), readMessage_returns hsize hmethod hread hvalid, by simp⟩

/-- A request to start the stream with a header line of its length and its body. -/
def lengthRequest : Text :=
  "POST /start_streaming_orderbook HTTP/1.1\r\nContent-Length: 11\r\n\r\n\x7b\"speed\":2\x7d".toList

theorem declaredLength_lengthRequest : declaredLength lengthRequest = some "11".toList := by
  have hsection : headerSection lengthRequest = "Content-Length: 11".toList := by decide
  have hline : splitOn crlf "Content-Length: 11".toList = ["Content-Length: 11".toList] :=
    splitOn_of_none (by decide)
  have hcolon : indexOf [':', ' '] "Content-Length: 11".toList = some 14 := by decide
  have hheader : headerOf "Content-Length: 11".toList =
      some ("Content-Length".toList, "11".toList) := by
    unfold headerOf
    rw [splitOn_of_some (by decide) hcolon, splitOn_of_none (by decide)]
    rfl
  unfold declaredLength headersOf
  rw [hsection, hline, List.filterMap_cons, hheader]
  rfl

theorem returns_iff_wellEnded_post :
    ∃ result, Returns (fun turns => readMessage turns (fun _ => .ok (.null : Json Empty))
      lengthRequest) result ∧ (result = none ↔ methodOf lengthRequest = none) := by
  have hpost : methodOf lengthRequest = some .post := by decide
  have hform : indexOf keyFormat (bodyOf lengthRequest) = none := by decide
  refine (returns_iff_wellEnded (fun _ => ⟨.null, rfl⟩) (by decide)
    fun method _ => .of_length (by decide)).mpr fun method hmethod => ?_
  obtain rfl := Option.some.inj (hpost.symm.trans hmethod)
  refine ⟨by decide, fun _ => ⟨fun text htext => ?_, fun i hi => ?_⟩⟩
  · obtain rfl := Option.some.inj (declaredLength_lengthRequest.symm.trans htext)
    exact ⟨11, by decide, by decide, by decide⟩
  · rw [hform] at hi
    cases hi

/-- A request that is cut behind the first character of its first end of a line. -/
theorem not_returns_cut : ¬ ∃ result, Returns
    (fun turns => readMessage turns (fun _ => .ok (.null : Json Empty))
      "GET / HTTP/1.1\r".toList) result ∧
    (result = none ↔ methodOf "GET / HTTP/1.1\r".toList = none) := by
  rintro ⟨result, ⟨n, hn⟩, _⟩
  have hthrows : readMessage (n + 1) (fun _ => .ok (.null : Json Empty))
      "GET / HTTP/1.1\r".toList = .error .outOfRange := rfl
  exact nomatch hthrows.symm.trans (hn (n + 1) (Nat.le_succ n))

end Outcome

end OrderBookServer.HttpRequest
