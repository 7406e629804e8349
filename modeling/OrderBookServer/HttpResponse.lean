import OrderBookServer.FramedMessage
import OrderBookServer.Json

/-!
The responses of src/core/network/https_server/response and their texts, one character for each
byte. Who owns the content is left out here. A client that reads the stream of a connection gets
the responses back.
-/
namespace OrderBookServer

inductive ResponseStatusCode
  | ok200
  | created201
  | badRequest400
  | unauthorizedRequest401
  | notFound404
  | riskError410
  | internalServerError500
deriving DecidableEq, Repr

namespace ResponseStatusCode

def toNat : ResponseStatusCode → ℕ
  | ok200 => 200
  | created201 => 201
  | badRequest400 => 400
  | unauthorizedRequest401 => 401
  | notFound404 => 404
  | riskError410 => 410
  | internalServerError500 => 500

/-- `response_status_code_map`, in which one code is missing. -/
def responseStatusCodeMap : ResponseStatusCode → Option Text
  | ok200 => some "OK".toList
  | created201 => some "Created".toList
  | badRequest400 => some "Bad Request".toList
  | unauthorizedRequest401 => some "Unauthorized Request".toList
  | notFound404 => some "Not Found".toList
  | riskError410 => none
  | internalServerError500 => some "Internal Server Error".toList

theorem exists_status {code : ResponseStatusCode} (h : code ≠ riskError410) :
    ∃ status, code.responseStatusCodeMap = some status ∧ '\r' ∉ status := by
  cases code with
  | riskError410 => exact absurd rfl h
  | ok200 => exact ⟨_, rfl, by decide⟩
  | created201 => exact ⟨_, rfl, by decide⟩
  | badRequest400 => exact ⟨_, rfl, by decide⟩
  | unauthorizedRequest401 => exact ⟨_, rfl, by decide⟩
  | notFound404 => exact ⟨_, rfl, by decide⟩
  | internalServerError500 => exact ⟨_, rfl, by decide⟩

end ResponseStatusCode

inductive ResponseFileType
  | js
  | css
  | woff2
  | noneType
deriving DecidableEq, Repr

structure FileInfo where
  fileType : ResponseFileType
  fileName : Text
deriving DecidableEq

def FileInfo.default : FileInfo := ⟨.noneType, []⟩

structure HttpResponse (δ : Type) where
  responseCode : ResponseStatusCode
  customHeader : Json δ
  content : Text
  isJsonFormat : Bool
  fileInfo : FileInfo

namespace HttpResponse

variable {δ : Type}

def lineEnding : Text := ['\r', '\n']

def httpVersion : Text := "HTTP/1.1".toList

def empty : HttpResponse δ := ⟨.ok200, .null, [], false, .default⟩

def ofContent (responseCode : ResponseStatusCode) (content : Text) (fileInfo : FileInfo) :
    HttpResponse δ := ⟨responseCode, .null, content, false, fileInfo⟩

def corsLines : List Text :=
  ["Access-Control-Allow-Origin: *".toList,
    ("Access-Control-Allow-Headers: Origin, X-Api-Key, X-Requested-With, Content-Type, " ++
      "Accept, Authorization").toList,
    "Access-Control-Allow-Credentials: true".toList,
    "Access-Control-Allow-Methods: GET, POST, OPTIONS, PUT, PATCH, DELETE".toList]

def contentTypeLine (response : HttpResponse δ) : List Text :=
  if response.isJsonFormat then ["Content-Type: application/json".toList]
  else match response.fileInfo.fileType with
    | .js => ["Content-Type: application/javascript; charset=utf-8".toList]
    | .css => ["Content-Type: text/css; charset=utf-8".toList]
    | .woff2 => ["Content-Type: font/woff2".toList]
    | .noneType => []

def dispositionLine (response : HttpResponse δ) : List Text :=
  if response.fileInfo.fileName ≠ [] then
    ["Content-Disposition: attachment; filename=\"".toList ++ response.fileInfo.fileName ++ ['"']]
  else []

def contentLengthLine (response : HttpResponse δ) : Text :=
  "Content-Length: ".toList ++ Decimal.toChars response.content.length

section Write

variable [CharConv δ]

/-- `for_each_with_key`, which does nothing on a handle that is no object. -/
def customLines (response : HttpResponse δ) : List Text :=
  match response.customHeader with
  | .object members => members.map fun (headerName, headerData) =>
    headerName ++ ": ".toList ++ headerData.getStringValue
  | _ => []

def ofJson (responseCode : ResponseStatusCode) (json : Json δ) : HttpResponse δ :=
  ⟨responseCode, .null, json.getStringValue, true, .default⟩

/-- The end of the map is followed where it has no entry for the code. -/
def getResponseInString (response : HttpResponse δ) : Option Text := do
  let status ← response.responseCode.responseStatusCodeMap
  let lines := response.customLines ++ corsLines ++ response.contentTypeLine ++
    response.dispositionLine ++ [response.contentLengthLine]
  return httpVersion ++ " ".toList ++ Decimal.toChars response.responseCode.toNat ++ " ".toList ++
    status ++ lineEnding ++ (lines.flatMap fun line => line ++ lineEnding) ++ lineEnding ++
    response.content

end Write

section Read

variable [CharConv δ]

def members (response : HttpResponse δ) : List (Text × Json δ) :=
  match response.customHeader with
  | .object members => members
  | _ => []

def corsEntries : List (Text × Text) :=
  [("Access-Control-Allow-Origin".toList, "*".toList),
    ("Access-Control-Allow-Headers".toList,
      "Origin, X-Api-Key, X-Requested-With, Content-Type, Accept, Authorization".toList),
    ("Access-Control-Allow-Credentials".toList, "true".toList),
    ("Access-Control-Allow-Methods".toList, "GET, POST, OPTIONS, PUT, PATCH, DELETE".toList)]

def contentTypeEntry (response : HttpResponse δ) : List (Text × Text) :=
  if response.isJsonFormat then [("Content-Type".toList, "application/json".toList)]
  else match response.fileInfo.fileType with
    | .js => [("Content-Type".toList, "application/javascript; charset=utf-8".toList)]
    | .css => [("Content-Type".toList, "text/css; charset=utf-8".toList)]
    | .woff2 => [("Content-Type".toList, "font/woff2".toList)]
    | .noneType => []

def dispositionEntry (response : HttpResponse δ) : List (Text × Text) :=
  if response.fileInfo.fileName ≠ [] then
    [("Content-Disposition".toList,
      "attachment; filename=\"".toList ++ response.fileInfo.fileName ++ ['"'])]
  else []

/-- What a client knows of a response: the code and its text, the headers, and the content. -/
def received (response : HttpResponse δ) : ReadMessage where
  startLine := "HTTP/1.1 ".toList ++ Decimal.toChars response.responseCode.toNat ++ [' '] ++
    response.responseCode.responseStatusCodeMap.getD []
  fields := (response.members.map fun m => (m.1, m.2.getStringValue)) ++ corsEntries ++
    response.contentTypeEntry ++ response.dispositionEntry ++
    [("Content-Length".toList, Decimal.toChars response.content.length)]
  body := response.content

/-- The code has a text, and no custom header and no file name ends its line or has a length. -/
structure Sendable (response : HttpResponse δ) : Prop where
  status : response.responseCode ≠ .riskError410
  names : ∀ m ∈ response.members, ('\r' ∉ m.1 ∧ ':' ∉ m.1) ∧ isLengthField m.1 = false
  values : ∀ m ∈ response.members,
    '\r' ∉ m.2.getStringValue ∧ m.2.getStringValue.head? ≠ some ' '
  fileName : '\r' ∉ response.fileInfo.fileName

variable {response : HttpResponse δ}

theorem areFields_custom (h : response.Sendable) : AreFields response.customLines
    (response.members.map fun m => (m.1, m.2.getStringValue)) := by
  have hall : ∀ members : List (Text × Json δ),
      (∀ m ∈ members, ('\r' ∉ m.1 ∧ ':' ∉ m.1) ∧ isLengthField m.1 = false) →
      (∀ m ∈ members, '\r' ∉ m.2.getStringValue ∧ m.2.getStringValue.head? ≠ some ' ') →
      AreFields (members.map fun m => m.1 ++ ": ".toList ++ m.2.getStringValue)
        (members.map fun m => (m.1, m.2.getStringValue)) := by
    intro members hnames hvalues
    induction members with
    | nil => exact .nil
    | cons m members ih =>
      have hrest := ih (fun n hn => hnames n (List.mem_cons_of_mem m hn))
        fun n hn => hvalues n (List.mem_cons_of_mem m hn)
      have hline : m.1 ++ ": ".toList ++ m.2.getStringValue =
          m.1 ++ (':' :: ' ' :: m.2.getStringValue) := List.append_assoc ..
      exact hrest.cons hline (hnames m (List.mem_cons_self ..)).1
        (hvalues m (List.mem_cons_self ..))
  have hcustom := hall response.members h.names h.values
  unfold customLines members at *
  cases hheader : response.customHeader with
  | object members =>
    rw [hheader] at hcustom
    exact hcustom
  | _ => exact .nil

theorem areFields_cors : AreFields corsLines corsEntries := by
  unfold corsLines corsEntries
  refine .cons (.cons (.cons (.cons .nil ?_ ?_ ?_) ?_ ?_ ?_) ?_ ?_ ?_) ?_ ?_ ?_
  all_goals decide

omit [CharConv δ] in
theorem areFields_contentType (response : HttpResponse δ) :
    AreFields response.contentTypeLine response.contentTypeEntry := by
  unfold contentTypeLine contentTypeEntry
  cases response.isJsonFormat with
  | true => exact .cons .nil (by decide) (by decide) (by decide)
  | false =>
    cases response.fileInfo.fileType with
    | js => exact .cons .nil (by decide) (by decide) (by decide)
    | css => exact .cons .nil (by decide) (by decide) (by decide)
    | woff2 => exact .cons .nil (by decide) (by decide) (by decide)
    | noneType => exact .nil

theorem areFields_disposition (h : response.Sendable) :
    AreFields response.dispositionLine response.dispositionEntry := by
  have hsplit : "Content-Disposition: attachment; filename=\"".toList =
      "Content-Disposition".toList ++ (':' :: ' ' :: "attachment; filename=\"".toList) := by decide
  have hfileText : '\r' ∉ "attachment; filename=\"".toList := by decide
  unfold dispositionLine dispositionEntry
  split
  · refine .cons .nil ?_ (by decide) ⟨?_, ?_⟩
    · rw [hsplit]
      simp only [List.append_assoc, List.cons_append]
    · simp only [List.mem_append, not_or]
      exact ⟨⟨hfileText, h.fileName⟩, by decide⟩
    · exact fun hhead => absurd (Option.some.inj hhead) (by decide : ¬ 'a' = ' ')
  · exact .nil

theorem toChars_natCast (n : ℕ) : Decimal.toChars n = Nat.toDigits 10 n := by
  have hpos : ¬ (n : ℤ) < 0 := by omega
  rw [Decimal.toChars, if_neg hpos, Int.natAbs_natCast]

theorem notMem_toChars {c : Char} (hc : c.isDigit = false) (n : ℕ) : c ∉ Decimal.toChars n := by
  intro hmem
  rw [toChars_natCast] at hmem
  rw [Decimal.isDigit_of_mem hmem] at hc
  cases hc

omit [CharConv δ] in
theorem areFields_contentLength (response : HttpResponse δ) :
    AreFields [response.contentLengthLine]
      [("Content-Length".toList, Decimal.toChars response.content.length)] := by
  have hblank : (Decimal.toChars response.content.length).head? ≠ some ' ' := fun hhead =>
    notMem_toChars (by decide) _ (List.mem_of_mem_head? hhead)
  have hsplit : "Content-Length: ".toList = "Content-Length".toList ++ [':', ' '] := by decide
  refine .cons .nil ?_ (by decide) ⟨notMem_toChars (by decide) _, hblank⟩
  unfold contentLengthLine
  rw [hsplit]
  simp only [List.append_assoc, List.cons_append, List.nil_append]

/-- The length is in the only field that says it. -/
theorem lengthOf_received (h : response.Sendable) :
    lengthOf response.received.fields = some response.content.length := by
  have hcustom : (response.members.map fun m => (m.1, m.2.getStringValue)).find?
      (fun field => isLengthField field.1) = none := by
    rw [List.find?_eq_none]
    intro field hfield
    obtain ⟨m, hm, rfl⟩ := List.mem_map.mp hfield
    simp [(h.names m hm).2]
  have hcors : corsEntries.find? (fun field => isLengthField field.1) = none := by decide
  have htype : response.contentTypeEntry.find? (fun field => isLengthField field.1) = none := by
    unfold contentTypeEntry
    cases response.isJsonFormat with
    | true => rfl
    | false => cases response.fileInfo.fileType <;> rfl
  have hdisposition :
      response.dispositionEntry.find? (fun field => isLengthField field.1) = none := by
    unfold dispositionEntry
    split
    · rfl
    · rfl
  have hread : Decimal.natFromChars (Decimal.toChars response.content.length) =
      some response.content.length := by
    rw [toChars_natCast]
    have hdigits : Decimal.natFromChars (Nat.toDigits 10 response.content.length ++ []) =
        some response.content.length := Decimal.natFromChars_toDigits (by simp)
    rwa [List.append_nil] at hdigits
  unfold lengthOf received
  simp only [List.find?_append, hcustom, hcors, htype, hdisposition, Option.none_or]
  exact hread

theorem startLine_received {status : Text}
    (hstatus : response.responseCode.responseStatusCodeMap = some status) :
    response.received.startLine = "HTTP/1.1 ".toList ++
      Decimal.toChars response.responseCode.toNat ++ [' '] ++ status := by
  unfold received
  simp only [hstatus, Option.getD_some]

theorem getResponseInString_eq {status : Text}
    (hstatus : response.responseCode.responseStatusCodeMap = some status) :
    response.getResponseInString = some (response.received.startLine ++ lineEnd ++
      ((response.customLines ++ corsLines ++ response.contentTypeLine ++
        response.dispositionLine ++ [response.contentLengthLine]).flatMap
          (fun line => line ++ lineEnding) ++ (lineEnd ++ response.content))) := by
  have hversion : httpVersion ++ " ".toList = "HTTP/1.1 ".toList := by decide
  unfold getResponseInString
  rw [hstatus, startLine_received hstatus, ← hversion]
  simp only [List.append_assoc]
  rfl

/-- The text of a response is that of a framed message. -/
theorem exists_framed (h : response.Sendable) : ∃ m : FramedMessage,
    response.getResponseInString = some m.bytes ∧ m.read = response.received := by
  obtain ⟨fields, hlines, hentries⟩ := (((areFields_custom h).append areFields_cors).append
    (areFields_contentType response)).append (areFields_disposition h) |>.append
    (areFields_contentLength response)
  have hentries' : fields.map MessageField.entry = response.received.fields := by
    rw [hentries]
    rfl
  obtain ⟨status, hstatus, hclean⟩ := ResponseStatusCode.exists_status h.status
  have hline := startLine_received hstatus
  have hstart : '\r' ∉ response.received.startLine := by
    have hversion : '\r' ∉ "HTTP/1.1 ".toList := by decide
    have hdigits := notMem_toChars (c := '\r') (by decide) response.responseCode.toNat
    rw [hline]
    simp only [List.mem_append, not_or]
    exact ⟨⟨⟨hversion, hdigits⟩, by decide⟩, hclean⟩
  refine ⟨⟨response.received.startLine, fields, response.content, hstart,
    hentries' ▸ lengthOf_received h⟩, ?_, ?_⟩
  · have hfieldLines : FramedMessage.fieldLines fields =
        (response.customLines ++ corsLines ++ response.contentTypeLine ++
          response.dispositionLine ++ [response.contentLengthLine]).flatMap
          fun line => line ++ lineEnding := by
      rw [← hlines, List.flatMap_map]
      rfl
    rw [getResponseInString_eq hstatus, ← hfieldLines]
    rfl
  · exact congrArg (fun entries =>
      (⟨response.received.startLine, entries, response.content⟩ : ReadMessage)) hentries'

theorem exists_framed_list {responses : List (HttpResponse δ)}
    (h : ∀ response ∈ responses, response.Sendable) : ∃ ms : List FramedMessage,
      responses.mapM getResponseInString = some (ms.map FramedMessage.bytes) ∧
        ms.map FramedMessage.read = responses.map received := by
  induction responses with
  | nil => exact ⟨[], rfl, rfl⟩
  | cons response responses ih =>
    obtain ⟨m, htext, hread⟩ := exists_framed (h response (List.mem_cons_self ..))
    obtain ⟨ms, htexts, hreads⟩ := ih fun r hr => h r (List.mem_cons_of_mem response hr)
    refine ⟨m :: ms, ?_, ?_⟩
    · simp only [List.mapM_cons, htext, htexts, List.map_cons]
      rfl
    · rw [List.map_cons, List.map_cons, hread, hreads]

/-- Responses that are written one after the other are read back: of whatever has arrived, the
first ones whole and in order, and of all there is, all of them. -/
theorem responses_readBack {responses : List (HttpResponse δ)}
    (h : ∀ response ∈ responses, response.Sendable) :
    ∃ texts, responses.mapM getResponseInString = some texts ∧
      readStream texts.flatten = (responses.map received, []) ∧
      ∀ stream, stream <+: texts.flatten → ∃ k left, k ≤ responses.length ∧
        stream = (texts.take k).flatten ++ left ∧
          readStream stream = ((responses.take k).map received, left) := by
  obtain ⟨ms, htexts, hreads⟩ := exists_framed_list h
  have hlength : ms.length = responses.length := by
    have hlengths := congrArg List.length hreads
    rwa [List.length_map, List.length_map] at hlengths
  refine ⟨_, htexts, ?_, fun stream hstream => ?_⟩
  · rw [← List.flatMap_def, readStream_bytes, hreads]
  · rw [← List.flatMap_def] at hstream
    obtain ⟨k, left, hk, hsplit, hread⟩ := readStream_prefix hstream
    refine ⟨k, left, hlength ▸ hk, ?_, ?_⟩
    · rw [hsplit, ← List.map_take, ← List.flatMap_def]
    · rw [hread, List.map_take, hreads, List.map_take]

/-- A page and an error, of which the content looks like the end of the headers. -/
def twoResponses : List (HttpResponse Empty) :=
  [.ofContent .ok200 "a\r\n\r\nHTTP/1.1 200 OK".toList ⟨.js, "a.js".toList⟩,
    .ofContent .notFound404 [] .default]

theorem responses_readBack_twoResponses : ∃ texts,
    twoResponses.mapM getResponseInString = some texts ∧
      readStream texts.flatten = (twoResponses.map received, []) := by
  have hsendable : ∀ response ∈ twoResponses, response.Sendable := by
    have hnone : ∀ response ∈ twoResponses, response.members = [] ∧
        response.responseCode ≠ .riskError410 ∧ '\r' ∉ response.fileInfo.fileName := by
      intro response hresponse
      rcases List.mem_pair.mp hresponse with rfl | rfl
      · exact ⟨rfl, by decide, by decide⟩
      · exact ⟨rfl, by decide, by decide⟩
    intro response hresponse
    obtain ⟨hmembers, hstatus, hname⟩ := hnone response hresponse
    exact ⟨hstatus, by simp [hmembers], by simp [hmembers], hname⟩
  obtain ⟨texts, htexts, hread, _⟩ := responses_readBack hsendable
  exact ⟨texts, htexts, hread⟩

end Read

end HttpResponse

end OrderBookServer
