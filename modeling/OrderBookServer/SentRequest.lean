import OrderBookServer.HeaderLines
import OrderBookServer.HttpReturns

/-!
Requests as a client sends them, and what is read off one that has arrived whole. A header line
has a colon behind its name and may have blanks on either side of its value. The reader knows one
blank in front of a value and none behind it, and splits a value at a colon with a blank.
-/
namespace OrderBookServer

open StdString Occurrences HttpRequest

def isBlank (c : Char) : Prop := c = ' ' ∨ c = '\t'

structure Field where
  name : Text
  before : Text
  value : Text
  after : Text
  name_ne : name ≠ []
  name_clean : ∀ c ∈ name, c ≠ ':' ∧ c ≠ '\r' ∧ c ≠ '\n'
  value_clean : ∀ c ∈ value, c ≠ '\r' ∧ c ≠ '\n'
  value_trimmed : (∀ c ∈ value.head?, ¬ isBlank c) ∧ ∀ c ∈ value.getLast?, ¬ isBlank c
  blanks : ∀ c ∈ before ++ after, isBlank c

namespace Field

def line (f : Field) : Text := f.name ++ (':' :: (f.before ++ (f.value ++ f.after)))

/-- Names do not distinguish the letters' cases. -/
def isContentLength (f : Field) : Prop := f.name.map Char.toLower = "content-length".toList

def entry (f : Field) : Text × Text := (f.name, f.value)

end Field

structure SentRequest where
  method : Text
  path : Text
  query : Option Text
  version : Text
  fields : List Field
  body : Text
  method_clean : ∀ c ∈ method, c ≠ ' ' ∧ c ≠ '\r' ∧ c ≠ '\n'
  path_clean : ∀ c ∈ path, c ≠ ' ' ∧ c ≠ '?' ∧ c ≠ '\r' ∧ c ≠ '\n'
  query_clean : ∀ q ∈ query, ∀ c ∈ q, c ≠ ' ' ∧ c ≠ '\r' ∧ c ≠ '\n'
  version_clean : ∀ c ∈ version, c ≠ '\r' ∧ c ≠ '\n'
  lengths : ∀ f ∈ fields, f.isContentLength → IsNumeral f.value body.length
  bodied : if method = "POST".toList ∨ method = "PUT".toList then ∃ f ∈ fields, f.isContentLength
    else body = []

namespace SentRequest

def target (m : SentRequest) : Text :=
  match m.query with
  | some query => m.path ++ '?' :: query
  | none => m.path

def requestLine (m : SentRequest) : Text :=
  m.method ++ ' ' :: (m.target ++ ' ' :: m.version)

/-- Each line with its end in front. -/
def fieldLines (fields : List Field) : Text := fields.flatMap fun f => crlf ++ f.line

def bytes (m : SentRequest) : Text :=
  m.requestLine ++ (fieldLines m.fields ++ (crlf ++ crlf ++ m.body))

/-- The request that is to be executed. -/
structure Executes {δ : Type} (request : HttpRequest δ) (m : SentRequest) : Prop where
  method : RequestMethod.requestMethodMap m.method = some request.method
  url : request.url = m.path
  queryString : request.queryString = m.query.getD []
  headerParams : request.headerParams = m.fields.map Field.entry
  body : request.body = m.body

/-- What the reader asks of a whole request. -/
structure Readable {δ : Type} (parse : Text → Except Failure (Json δ)) (m : SentRequest) :
    Prop where
  size : m.bytes.length < 2147483648
  blanks : ∀ f ∈ m.fields, f.before = [' '] ∧ f.after = []
  values : ∀ f ∈ m.fields, indexOf [':', ' '] f.value = none
  names : (m.fields.map Field.name).Nodup
  method : ∃ method, RequestMethod.requestMethodMap m.method = some method ∧
    (method.isPost → FormReads m.body ∧ ∃ json, parse m.body = .ok json)

variable {m : SentRequest} {c : Char}

section RequestLine

theorem method_notMem (m : SentRequest) : ∀ c ∈ m.method, c ∉ [' '] ∧ c ∉ crlf := by
  intro c hc
  obtain ⟨hblank, hcr, hlf⟩ := m.method_clean c hc
  simp [crlf, hblank, hcr, hlf]

theorem target_notMem (m : SentRequest) : ∀ c ∈ m.target, c ∉ [' '] ∧ c ∉ crlf := by
  intro c hc
  unfold target at hc
  split at hc
  · rename_i query hquery
    rcases List.mem_append.mp hc with hpath | hrest
    · obtain ⟨hblank, _, hcr, hlf⟩ := m.path_clean c hpath
      simp [crlf, hblank, hcr, hlf]
    · rcases List.mem_cons.mp hrest with rfl | hmem
      · decide
      · obtain ⟨hblank, hcr, hlf⟩ := m.query_clean query hquery c hmem
        simp [crlf, hblank, hcr, hlf]
  · obtain ⟨hblank, _, hcr, hlf⟩ := m.path_clean c hc
    simp [crlf, hblank, hcr, hlf]

theorem requestLine_notMem (m : SentRequest) : ∀ c ∈ m.requestLine, c ∉ crlf := by
  intro c hc
  rcases List.mem_append.mp hc with hname | hrest
  · exact (m.method_notMem c hname).2
  · rcases List.mem_cons.mp hrest with rfl | hrest
    · decide
    · rcases List.mem_append.mp hrest with htarget | hrest
      · exact (m.target_notMem c htarget).2
      · rcases List.mem_cons.mp hrest with rfl | hversion
        · decide
        · obtain ⟨hcr, hlf⟩ := m.version_clean c hversion
          simp [crlf, hcr, hlf]

/-- What is behind the blank that follows the target. -/
def behindTarget (m : SentRequest) : Text :=
  m.version ++ (fieldLines m.fields ++ (crlf ++ crlf ++ m.body))

theorem bytes_eq (m : SentRequest) :
    m.bytes = m.method ++ ' ' :: (m.target ++ ' ' :: m.behindTarget) := by
  simp [bytes, requestLine, behindTarget]

theorem findIdx?_name (m : SentRequest) :
    (m.bytes.findIdx? fun c => c ∈ [' ']) = some m.method.length := by
  rw [bytes_eq]
  exact findIdx?_append_of_notMem _ (fun c hc => (m.method_notMem c hc).1)
    (List.mem_singleton_self ' ')

theorem methodOf_bytes (m : SentRequest) :
    methodOf m.bytes = RequestMethod.requestMethodMap m.method := by
  unfold methodOf
  rw [findIdx?_name, Option.bind_some, bytes_eq, List.take_left]

theorem deserializeUrl_bytes (hsize : m.bytes.length < 2147483648) :
    deserializeUrl m.bytes = .ok m.target := by
  have hmethod : ' ' ∉ m.method := fun hmem =>
    (m.method_notMem ' ' hmem).1 (List.mem_singleton_self ' ')
  have htarget : ' ' ∉ m.target := fun hmem =>
    (m.target_notMem ' ' hmem).1 (List.mem_singleton_self ' ')
  rw [bytes_eq] at hsize ⊢
  exact deserializeUrl_between hmethod htarget (by omega)

theorem deserializeQueryString_target (hsize : m.target.length < 2147483648) :
    deserializeQueryString m.target = .ok (m.path, m.query.getD []) := by
  have hpath : '?' ∉ m.path := fun hmem => (m.path_clean '?' hmem).2.1 rfl
  unfold target at hsize ⊢
  cases hquery : m.query with
  | none =>
    rw [hquery] at hsize
    rw [deserializeQueryString_eq hsize, indexOf_of_notMem hpath, Option.getD_none]
  | some query =>
    simp only [hquery] at hsize
    have hlength : (m.path ++ '?' :: query).length = m.path.length + (query.length + 1) :=
      List.length_append
    exact deserializeQueryString_append hpath (by omega) (by omega)

end RequestLine

section Lines

variable {f : Field} {fields : List Field}

theorem line_clean (f : Field) : ∀ c ∈ f.line, c ≠ '\r' ∧ c ≠ '\n' := by
  intro c hc
  have hblank : ∀ c, isBlank c → c ≠ '\r' ∧ c ≠ '\n' := by
    rintro c (rfl | rfl)
    · decide
    · decide
  rcases List.mem_append.mp hc with hname | hrest
  · exact (f.name_clean c hname).2
  · rcases List.mem_cons.mp hrest with rfl | hrest
    · decide
    · rcases List.mem_append.mp hrest with hbefore | hrest
      · exact hblank c (f.blanks c (List.mem_append_left _ hbefore))
      · rcases List.mem_append.mp hrest with hvalue | hafter
        · exact f.value_clean c hvalue
        · exact hblank c (f.blanks c (List.mem_append_right _ hafter))

theorem cr_notMem_line (f : Field) : '\r' ∉ f.line := fun hmem => (line_clean f '\r' hmem).1 rfl

theorem isLine_line (f : Field) : IsLine f.line where
  ne_nil := by simp [Field.line]
  skips _ := skips_of_notMem (cr_notMem_line f)

theorem isLine_of_mem (fields : List Field) : ∀ l ∈ fields.map Field.line, IsLine l := by
  intro l hl
  obtain ⟨f, _, rfl⟩ := List.mem_map.mp hl
  exact isLine_line f

theorem fieldLines_eq (fields : List Field) :
    fieldLines fields = precededLines (fields.map Field.line) :=
  (List.flatMap_map ..).symm

theorem bytes_eq_lines (m : SentRequest) : m.bytes =
    m.requestLine ++ (precededLines (m.fields.map Field.line) ++ (crlf ++ crlf ++ m.body)) := by
  rw [bytes, fieldLines_eq]

theorem indexOf_bytes (m : SentRequest) : indexOf (crlf ++ crlf) m.bytes =
    some (m.requestLine.length + (fieldLines m.fields).length) := by
  rw [bytes_eq_lines, indexOf_blankLine m.requestLine_notMem (isLine_of_mem m.fields),
    fieldLines_eq]

theorem bodyOf_bytes (m : SentRequest) : bodyOf m.bytes = m.body := by
  have hsplit : m.bytes = m.requestLine ++ (fieldLines m.fields ++ (crlf ++ crlf ++ m.body)) := rfl
  unfold bodyOf
  rw [indexOf_bytes]
  simp only [hsplit, ← List.drop_drop, List.drop_left]
  rfl

theorem headerStart_bytes (m : SentRequest) : headerStart m.bytes = m.requestLine.length + 2 := by
  rw [bytes_eq_lines, headerStart_lines m.requestLine_notMem]

theorem headerOf_line (hbefore : f.before = [' ']) (hafter : f.after = [])
    (hvalue : indexOf [':', ' '] f.value = none) : headerOf f.line = some f.entry := by
  have hline : f.line = f.name ++ ([':', ' '] ++ f.value) := by
    simp [Field.line, hbefore, hafter]
  have hcolon : ':' ∉ f.name := fun hmem => (f.name_clean ':' hmem).1 rfl
  unfold headerOf
  rw [hline, splitOn_append_of_notMem hcolon, splitOn_of_none hvalue]
  rfl

/-- The headers of a request that has arrived whole are those it was sent with. -/
theorem headersOf_bytes (hblanks : ∀ f ∈ m.fields, f.before = [' '] ∧ f.after = [])
    (hvalues : ∀ f ∈ m.fields, indexOf [':', ' '] f.value = none) :
    headersOf m.bytes = m.fields.map Field.entry := by
  rw [bytes_eq_lines]
  cases hfields : m.fields with
  | nil =>
    have hbody : m.body = [] := by
      have hbodied := m.bodied
      rw [hfields] at hbodied
      split at hbodied
      · obtain ⟨f, hf, _⟩ := hbodied
        cases hf
      · exact hbodied
    have hnone : indexOf crlf [] = none := rfl
    rw [List.map_nil, headersOf_noLines m.requestLine_notMem, hbody, splitOn_of_none hnone,
      List.filterMap_cons_none headerOf_nil]
    rfl
  | cons f fields =>
    have hlines : ∀ f ∈ m.fields, (headerOf ∘ Field.line) f = some f.entry := by
      intro f hf
      obtain ⟨hbefore, hafter⟩ := hblanks f hf
      exact headerOf_line hbefore hafter (hvalues f hf)
    have hne : m.fields.map Field.line ≠ [] := by simp [hfields]
    rw [← hfields, headersOf_lines m.requestLine_notMem (isLine_of_mem m.fields) hne,
      List.filterMap_map, List.filterMap_congr hlines]
    exact congrFun List.filterMap_eq_map m.fields

end Lines

section Whole

variable {δ : Type} {parse : Text → Except Failure (Json δ)} {request : HttpRequest δ}
  {method : RequestMethod} {turns : ℕ}

theorem headerStart_le (m : SentRequest) : headerStart m.bytes ≤ m.bytes.length := by
  have hend := add_length_le_of_indexOf (indexOf_bytes m)
  have hfour : (crlf ++ crlf).length = 4 := rfl
  rw [headerStart_bytes]
  omega

/-- The readers of forms are given the body that was sent. -/
theorem deserializeBodyOf_bytes (hsize : m.bytes.length < 2147483648)
    (hmethod : RequestMethod.requestMethodMap m.method = some method)
    (hpost : method.isPost = true) :
    deserializeBodyOf turns parse method m.bytes =
      parse m.body >>= fun json =>
        deserializeBodyFormData turns m.body json >>= fun json =>
          deserializeBodyRawData turns m.body json >>= fun json => .ok (m.body, json) := by
  obtain ⟨_, hfour⟩ := blank_of_methodOf ((methodOf_bytes m).trans hmethod)
  rw [deserializeBodyOf_of_post hpost (by omega) (by omega), bodyOf_bytes]

/-- A request that has arrived whole is constructed where its body is read. -/
theorem deserialize_bytes {body : Text} {json : Json δ} (hsize : m.bytes.length < 2147483648)
    (hmethod : RequestMethod.requestMethodMap m.method = some method)
    (hbody : Returns (fun turns => deserializeBodyOf turns parse method m.bytes) (body, json)) :
    ∃ request, Returns (fun turns => deserialize turns parse method m.bytes) request ∧
      request.body = body ∧ request.bodyJson = json := by
  obtain ⟨hblank, _⟩ := blank_of_methodOf ((methodOf_bytes m).trans hmethod)
  exact deserialize_returns_of_body (.of_length hsize) hblank (headerStart_le m) hbody

/-- The length that is read is the one of a header that gives it. -/
theorem numeral_of_declaredLength (hheaders : headersOf m.bytes = m.fields.map Field.entry)
    {text : Text} (h : declaredLength m.bytes = some text) : IsNumeral text m.body.length := by
  have hfield : ∀ name : Text, name.map Char.toLower = "content-length".toList →
      (headersOf m.bytes).lookup name = some text → IsNumeral text m.body.length := by
    intro name hname hlookup
    rw [List.lookup_eq_some_iff] at hlookup
    obtain ⟨front, back, heq, _⟩ := hlookup
    have hmem : (name, text) ∈ m.fields.map Field.entry := by
      rw [← hheaders, heq]
      simp
    obtain ⟨f, hf, hentry⟩ := List.mem_map.mp hmem
    obtain ⟨rfl, rfl⟩ := Prod.mk.inj hentry
    exact m.lengths f hf hname
  unfold declaredLength at h
  rcases Option.or_eq_some_iff.mp h with hfirst | ⟨_, hsecond⟩
  · exact hfield _ (by decide) (Option.filter_eq_some_iff.mp hfirst).1
  · exact hfield _ (by decide) (Option.filter_eq_some_iff.mp hsecond).1

/-- A request that has arrived whole is not found to be too short. -/
theorem isValidFormat_whole (hsize : m.body.length < 2147483648)
    (hheaders : headersOf m.bytes = m.fields.map Field.entry)
    (hparams : request.headerParams = insertAll [] (headersOf m.bytes))
    (hbody : request.method.isPost → request.body = m.body) :
    request.isValidFormat = .ok true := by
  unfold isValidFormat
  split
  · rename_i hpost
    rw [contentLength_eq hparams]
    cases hlength : declaredLength m.bytes with
    | none => rfl
    | some text =>
      have hread := strtol_of_numeral (numeral_of_declaredLength hheaders hlength)
      have hok : stoi text = .ok m.body.length := stoi_ok_iff.mpr ⟨hread, by omega, by omega⟩
      have hat : sizeT m.body.length = m.body.length := by
        unfold sizeT
        omega
      simp only [hok, ok_bind, hbody hpost, hat, decide_true, Bool.or_true]
      rfl
  · rfl

/-- The address that is read is the one that was sent. -/
theorem url_of_readFrom (hsize : m.bytes.length < 2147483648) (h : ReadFrom m.bytes request) :
    request.url = m.path ∧ request.queryString = m.query.getD [] := by
  obtain ⟨target, htarget, hquery⟩ := h.url
  have hurl := deserializeUrl_bytes hsize
  have hshort := Nat.lt_of_le_of_lt (length_le_of_deserializeUrl hurl) hsize
  rw [htarget] at hurl
  obtain rfl := Except.ok.inj hurl
  rw [deserializeQueryString_target hshort] at hquery
  obtain ⟨hpath, hquery⟩ := Prod.mk.inj (Except.ok.inj hquery)
  exact ⟨hpath.symm, hquery.symm⟩

/-- A request that has arrived whole is read as it was sent. -/
theorem readMessage_whole (h : m.Readable parse) : ∃ request, Executes request m ∧
    Returns (fun turns => readMessage turns parse m.bytes) (some (request, true)) := by
  obtain ⟨method, hknown, hreads⟩ := h.method
  have hfits : Fits method m.bytes := .of_length h.size
  have hmethod := (methodOf_bytes m).trans hknown
  obtain ⟨hblank, hfour⟩ := blank_of_methodOf hmethod
  have hbodyOf := bodyOf_bytes m
  obtain ⟨request, hread⟩ := deserialize_returns
    (fun hpost => hbodyOf ▸ (hreads hpost).2) hfits hblank (by omega) (headerStart_le m)
    fun hpost => hbodyOf ▸ (hreads hpost).1
  obtain ⟨hfrom, rfl⟩ := readFrom_of_returns hfits (by omega) hread
  have hheaders := headersOf_bytes h.blanks h.values
  obtain ⟨hpath, hquery⟩ := url_of_readFrom h.size hfrom
  have hbody : request.body = m.body := by
    rw [hfrom.body, hbodyOf]
    split
    · rfl
    · rename_i hpost
      have hbodied := m.bodied
      split at hbodied
      · rename_i hname
        rcases hname with heq | heq
        · rw [heq] at hknown
          exact absurd (congrArg RequestMethod.isPost (Option.some.inj hknown)).symm hpost
        · rw [heq] at hknown
          exact absurd (congrArg RequestMethod.isPost (Option.some.inj hknown)).symm hpost
      · exact hbodied.symm
  have hparams : request.headerParams = m.fields.map Field.entry := by
    have hnodup : (([] ++ m.fields.map Field.entry).map Prod.fst).Nodup := by
      rw [List.nil_append, List.map_map]
      exact h.names
    rw [hfrom.headerParams, hheaders, insertAll_append_of_nodup hnodup, List.nil_append]
  have hlength : m.body.length < 2147483648 := by
    have hle := length_bodyOf_le m.bytes
    rw [hbodyOf] at hle
    have hsize := h.size
    omega
  refine ⟨request, ⟨hknown, hpath, hquery, hparams, hbody⟩, ?_⟩
  apply readMessage_returns hfits.text hmethod hread
  exact isValidFormat_whole hlength hheaders hfrom.headerParams fun _ => hbody

end Whole

section Shortest

theorem isNumeral_toDigits (n : ℕ) : IsNumeral (Nat.toDigits 10 n) n :=
  ⟨Nat.toDigits_ne_nil, fun _ hc => Decimal.isDigit_of_mem hc, Nat.ofDigitChars_ten_toDigits⟩

theorem digit_clean {n : ℕ} (hc : c ∈ Nat.toDigits 10 n) :
    c ≠ '\r' ∧ c ≠ '\n' ∧ ¬ isBlank c := by
  have hdigit := Decimal.isDigit_of_mem hc
  refine ⟨?_, ?_, ?_⟩
  · rintro rfl
    cases hdigit
  · rintro rfl
    cases hdigit
  · rintro (rfl | rfl)
    · cases hdigit
    · cases hdigit

def contentLengthName : Text :=
  ['C', 'o', 'n', 't', 'e', 'n', 't', '-', 'L', 'e', 'n', 'g', 't', 'h']

theorem contentLengthName_clean : ∀ c ∈ contentLengthName, c ≠ ':' ∧ c ≠ '\r' ∧ c ≠ '\n' := by
  simp [contentLengthName]

theorem blanks_singleton : ∀ c ∈ [' '] ++ ([] : Text), isBlank c := by
  simp [isBlank]

def contentLengthField (n : ℕ) : Field where
  name := contentLengthName
  before := [' ']
  value := Nat.toDigits 10 n
  after := []
  name_ne := List.cons_ne_nil _ _
  name_clean := contentLengthName_clean
  value_clean _ hc := ⟨(digit_clean hc).1, (digit_clean hc).2.1⟩
  value_trimmed := ⟨fun _ hc => (digit_clean (List.mem_of_mem_head? hc)).2.2,
    fun _ hc => (digit_clean (List.mem_of_mem_getLast? hc)).2.2⟩
  blanks := blanks_singleton

theorem isContentLength_contentLengthField (n : ℕ) : (contentLengthField n).isContentLength := by
  have hname : (contentLengthField n).name = (contentLengthField 0).name := rfl
  unfold Field.isContentLength
  rw [hname]
  decide

def postName : Text := ['P', 'O', 'S', 'T']

def getName : Text := ['G', 'E', 'T']

def rootPath : Text := ['/']

def httpVersion : Text := ['H', 'T', 'T', 'P', '/', '1', '.', '1']

theorem postName_clean : ∀ c ∈ postName, c ≠ ' ' ∧ c ≠ '\r' ∧ c ≠ '\n' := by
  simp [postName]

theorem getName_clean : ∀ c ∈ getName, c ≠ ' ' ∧ c ≠ '\r' ∧ c ≠ '\n' := by
  simp [getName]

theorem rootPath_clean : ∀ c ∈ rootPath, c ≠ ' ' ∧ c ≠ '?' ∧ c ≠ '\r' ∧ c ≠ '\n' := by
  simp [rootPath]

theorem httpVersion_clean : ∀ c ∈ httpVersion, c ≠ '\r' ∧ c ≠ '\n' := by
  simp [httpVersion]

theorem noQuery_clean : ∀ q ∈ (none : Option Text), ∀ c ∈ q, c ≠ ' ' ∧ c ≠ '\r' ∧ c ≠ '\n' :=
  fun q hq => absurd hq (Option.not_mem_none q)

theorem noFields_lengths : ∀ f ∈ ([] : List Field), f.isContentLength →
    IsNumeral f.value ([] : Text).length :=
  fun _ hf => absurd hf List.not_mem_nil

/-- A request with a body. -/
def post (body : Text) : SentRequest where
  method := postName
  path := rootPath
  query := none
  version := httpVersion
  fields := [contentLengthField body.length]
  body := body
  method_clean := postName_clean
  path_clean := rootPath_clean
  query_clean := noQuery_clean
  version_clean := httpVersion_clean
  lengths f hf _ := by
    obtain rfl := List.mem_singleton.mp hf
    exact isNumeral_toDigits body.length
  bodied := by
    rw [if_pos (by decide)]
    exact ⟨_, List.mem_singleton_self _, isContentLength_contentLengthField _⟩

/-- A request with a query. -/
def get (query : Text) (hclean : ∀ c ∈ query, c ≠ ' ' ∧ c ≠ '\r' ∧ c ≠ '\n') : SentRequest where
  method := getName
  path := rootPath
  query := some query
  version := httpVersion
  fields := []
  body := []
  method_clean := getName_clean
  path_clean := rootPath_clean
  query_clean q hq := Option.some.inj hq ▸ hclean
  version_clean := httpVersion_clean
  lengths := noFields_lengths
  bodied := by rw [if_neg (by decide)]

end Shortest

end SentRequest

end OrderBookServer
