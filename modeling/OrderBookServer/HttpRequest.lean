import OrderBookServer.Json
import OrderBookServer.StdString

/-!
The requests of src/core/network/https_server and how they are read off a text, one character
for each byte. The reader of JSON is a parameter. A request of the classes for POST, PUT and
DELETE has a body; for the others the body is what their getters return.
-/
namespace OrderBookServer

open StdString

inductive RequestMethod
  | get
  | post
  | options
  | head
  | put
  | delete
  | patch
deriving DecidableEq, Repr

namespace RequestMethod

def requestMethodMap (name : Text) : Option RequestMethod :=
  if name = "OPTIONS".toList then some options
  else if name = "GET".toList then some get
  else if name = "HEAD".toList then some head
  else if name = "POST".toList then some post
  else if name = "PUT".toList then some put
  else if name = "DELETE".toList then some delete
  else if name = "PATCH".toList then some patch
  else none

/-- The generator makes an `HttpRequestPost` or a class derived from it. -/
def isPost : RequestMethod → Bool
  | post => true
  | put => true
  | delete => true
  | _ => false

end RequestMethod

/-- `Utils::split_string`; `stop` is where the last piece ended. -/
def splitFrom (str del : Text) : ℕ → ℤ → List Text → Except Failure (List Text)
  | 0, _, _ => .error .outOfFuel
  | turns + 1, stop, res => do
    let start := toInt (sizeT stop + del.length)
    let stop := toInt (find str del (sizeT start))
    if stop ≠ -1 then
      let piece ← substr str (sizeT start) (sizeT (toInt (stop - start)))
      splitFrom str del turns stop (res ++ [piece])
    else
      -- the size is unsigned, so the test in front of this branch always holds
      let piece ← substr str (sizeT start) (sizeT (str.length - start))
      return res ++ [piece]

def splitString (turns : ℕ) (str del : Text) : Except Failure (List Text) :=
  splitFrom str del turns (toInt (-1 * del.length)) []

structure HttpRequest (δ : Type) where
  method : RequestMethod
  url : Text
  queryString : Text
  queryParams : List (Text × Text)
  headerParams : List (Text × Text)
  body : Text
  bodyJson : Json δ

namespace HttpRequest

def crlf : Text := ['\r', '\n']

def paramNotFound : Text := "PARAM_NOT_FOUND".toList

def keyFormat : Text := "Content-Disposition: form-data; name=".toList

/-- `insert` of an unordered map, which keeps an entry that is there. -/
def insertParam (params : List (Text × Text)) (key value : Text) : List (Text × Text) :=
  if (params.lookup key).isSome then params else params ++ [(key, value)]

def deserializeUrl (content : Text) : Except Failure Text :=
  let endOfMethodPos := findFirstOf content [' '] 0
  let endOfUrlPos := findFirstOf content [' '] (sizeT (endOfMethodPos + 1))
  if endOfUrlPos = npos then .ok []
  else substr content (sizeT (endOfMethodPos + 1)) (sizeT (endOfUrlPos - endOfMethodPos - 1))

/-- The address without its query, and the query. -/
def deserializeQueryString (url : Text) : Except Failure (Text × Text) :=
  let questionMarkPos := toInt (find url ['?'] 0)
  if questionMarkPos ≠ -1 then do
    let queryString ← substr url (sizeT (questionMarkPos + 1)) (sizeT (url.length - 1))
    let url ← substr url 0 (sizeT questionMarkPos)
    return (url, queryString)
  else .ok (url, [])

def queryParamsFrom (queryString : Text) :
    ℕ → ℕ → List (Text × Text) → Except Failure (List (Text × Text))
  | 0, _, _ => .error .outOfFuel
  | turns + 1, start, params =>
    if start < queryString.length then do
      let stop := start + ((queryString.drop start).takeWhile fun c => c ≠ '&').length
      let param ← substr queryString start (stop - start)
      let equalPos := toInt (find param ['='] 0)
      if equalPos < 0 then return params
      let key ← substr param 0 (sizeT equalPos)
      let value ← substr param (sizeT (equalPos + 1)) (sizeT (param.length - 1))
      queryParamsFrom queryString turns (stop + 1) (insertParam params key value)
    else .ok params

def deserializeQueryParams (turns : ℕ) (queryString : Text) :
    Except Failure (List (Text × Text)) := queryParamsFrom queryString turns 0 []

def headerParamsFrom (turns : ℕ) :
    List Text → List (Text × Text) → Except Failure (List (Text × Text))
  | [], params => .ok params
  | line :: headerList, params => do
    match ← splitString turns line [':', ' '] with
    | [key, value] => headerParamsFrom turns headerList (insertParam params key value)
    | _ => headerParamsFrom turns headerList params

def deserializeHeaderParams (turns : ℕ) (content : Text) :
    Except Failure (List (Text × Text)) := do
  let startOfHeader := sizeT (findFirstOf content crlf 0 + 2)
  let endOfHeader := find content (crlf ++ crlf) 0
  let headers ← substr content startOfHeader (sizeT (endOfHeader - startOfHeader))
  let headerList ← splitString turns headers crlf
  headerParamsFrom turns headerList []

section Body

variable {δ : Type} (turns : ℕ)

def deserializeBody (content : Text) : Except Failure Text :=
  let endOfRequestHeader := find content (crlf ++ crlf) 0
  substr content (sizeT (endOfRequestHeader + 4)) (sizeT (content.length - 1))

def formDataFrom (body frameFormat : Text) : ℕ → ℤ → Json δ → Except Failure (Json δ)
  | 0, _, _ => .error .outOfFuel
  | turns + 1, start, json =>
    let keyStart := toInt (find body keyFormat (sizeT start))
    if -1 < keyStart then do
      let keyStart := toInt (keyStart + (keyFormat.length + 1))
      let keyEnd := toInt (find body ['"'] (sizeT keyStart))
      let key ← substr body (sizeT keyStart) (sizeT (toInt (keyEnd - keyStart)))
      let valueStart := toInt (find body (crlf ++ crlf) (sizeT keyEnd) + 4)
      let valueEnd := toInt (find body crlf (sizeT valueStart))
      let value ← substr body (sizeT valueStart) (sizeT (toInt (valueEnd - valueStart)))
      let start := toInt (find body frameFormat (sizeT (start + frameFormat.length)))
      formDataFrom body frameFormat turns start (json.setKey key (.ofValue (.string value)))
    else .ok json

def deserializeBodyFormData (body : Text) (json : Json δ) : Except Failure (Json δ) :=
  let formDataStart := toInt (find body keyFormat 0)
  if -1 < formDataStart then do
    let frameFormat ← substr body 0 (sizeT formDataStart)
    formDataFrom body frameFormat turns 0 json
  else .ok json

def rawDataFrom : List Text → Json δ → Except Failure (Json δ)
  | [], json => .ok json
  | item :: bodyArr, json => do
    match ← splitString turns item ['='] with
    | key :: value :: _ => rawDataFrom bodyArr (json.setKey key (.ofValue (.string value)))
    | _ => rawDataFrom bodyArr json

/-- `operator==` with a null pointer. -/
def isNull : Json δ → Bool
  | .null => true
  | .value .null _ => true
  | _ => false

def deserializeBodyRawData (body : Text) (json : Json δ) : Except Failure (Json δ) :=
  if isNull json then do
    let bodyArr ← splitString turns body ['&']
    rawDataFrom turns bodyArr json
  else .ok json

/-- The body and what is read off it: nothing for a class without a body. -/
def deserializeBodyOf (parse : Text → Except Failure (Json δ)) (method : RequestMethod)
    (content : Text) : Except Failure (Text × Json δ) :=
  if method.isPost then do
    let body ← deserializeBody content
    let json ← parse body
    let json ← deserializeBodyFormData turns body json
    let json ← deserializeBodyRawData turns body json
    return (body, json)
  else .ok ([], .null)

def deserialize (parse : Text → Except Failure (Json δ)) (method : RequestMethod)
    (content : Text) : Except Failure (HttpRequest δ) := do
  let url ← deserializeUrl content
  let (url, queryString) ← deserializeQueryString url
  let queryParams ← deserializeQueryParams turns queryString
  let headerParams ← deserializeHeaderParams turns content
  let (body, bodyJson) ← deserializeBodyOf turns parse method content
  return ⟨method, url, queryString, queryParams, headerParams, body, bodyJson⟩

/-- No request where there is no blank or no method in front of it. -/
def createNewHttpRequest (parse : Text → Except Failure (Json δ)) (content : Text) :
    Except Failure (Option (HttpRequest δ)) := do
  let endOfMethodPos := findFirstOf content [' '] 0
  if endOfMethodPos = npos then return none
  let requestMethodStr ← substr content 0 endOfMethodPos
  match RequestMethod.requestMethodMap requestMethodStr with
  | none => return none
  | some method => return some (← deserialize turns parse method content)

def getQueryParam (request : HttpRequest δ) (param : Text) : Text :=
  match request.queryParams.lookup param with
  | some value => value
  | none => paramNotFound

def getHeaderParam (request : HttpRequest δ) (param : Text) : Text :=
  match request.headerParams.lookup param with
  | some value => value
  | none => paramNotFound

def contentLength (request : HttpRequest δ) : Except Failure ℤ :=
  let first := request.getHeaderParam "Content-Length".toList
  let second := request.getHeaderParam "content-length".toList
  if first ≠ paramNotFound then stoi first
  else if second ≠ paramNotFound then stoi second
  else .ok 0

def isValidFormat (request : HttpRequest δ) : Except Failure Bool :=
  if request.method.isPost then do
    let contentLength ← request.contentLength
    return contentLength = 0 || sizeT contentLength = request.body.length
  else .ok true

/-- What `handle_read` does to a message before it decides what becomes of the request. -/
def readMessage (parse : Text → Except Failure (Json δ)) (message : Text) :
    Except Failure (Option (HttpRequest δ × Bool)) := do
  match ← createNewHttpRequest turns parse message with
  | none => return none
  | some request => return some (request, ← request.isValidFormat)

end Body

end HttpRequest

end OrderBookServer
