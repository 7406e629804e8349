import OrderBookServer.EventLoopSafety
import OrderBookServer.HttpRequest
import OrderBookServer.HttpResponse

/-!
The coroutines of a request: src/core/network/https_server/route and `execute_request`. A handler
is a coroutine that returns a response. An exception of a coroutine ends the program, so no
`catch` in the source is ever reached, and there are none here. The files do not change while a
request is executed.
-/
namespace OrderBookServer

open Occurrences

/-- What the path of a file leads to. -/
inductive FileEntry
  | absent
  | directory
  | unreadable
  | file (content : Text)

/-- What the coroutines of a request return. -/
inductive Value (δ : Type)
  | unit
  | json (json : Json δ)
  | response (response : HttpResponse δ)
  | text (text : Text)

/-- What they do, besides what the handlers do. `followEnd` uses the end of the map of the status
codes as an entry. -/
inductive Statement (A : Type)
  | handler (a : A)
  | followEnd
  | writeToSocketIo (response : Text)
  | deleteRequest
deriving DecidableEq

abbrev Program (L A δ : Type) := Coroutine L (Statement A) (Value δ)

abbrev RequestHandleFunction (L A δ : Type) := HttpRequest δ → Program L A δ

namespace Value

variable {δ : Type}

def asResponse : Value δ → HttpResponse δ
  | .response r => r
  | _ => .empty

def asText : Value δ → Text
  | .text t => t
  | _ => []

end Value

namespace HttpRequest

variable {δ : Type}

/-- `none` is `UNKNOWN`, which the class for the other methods returns. -/
def getRequestMethod (request : HttpRequest δ) : Option RequestMethod :=
  match request.method with
  | .get => some .get
  | .post => some .post
  | .put => some .put
  | .delete => some .delete
  | _ => none

def checkFileType (name : Text) : ResponseFileType :=
  if name ≠ [] then
    if (indexOf ".js".toList name).isSome then .js
    else if (indexOf ".css".toList name).isSome then .css
    else if (indexOf ".woff2".toList name).isSome then .woff2
    else .noneType
  else .noneType

def notFoundErrorMessage : Text := "The given document couldn't be found".toList

def badRequestDefault : HttpResponse δ := .ofContent .notFound404 notFoundErrorMessage .default

def checkIsFilePathExist (files : Text → FileEntry) (dirPath filePath : Text) : Bool :=
  match files (dirPath ++ ['/'] ++ filePath) with
  | .file _ => true
  | _ => false

def sendFile (files : Text → FileEntry) (dirPath url : Text) (fileInfo : FileInfo) :
    HttpResponse δ :=
  match files (dirPath ++ ['/'] ++ url) with
  | .file content => .ofContent .ok200 content fileInfo
  | .absent => badRequestDefault
  | _ => .empty

/-- With a name, as which the file is to be saved, or an empty one. -/
def sendFileFromDirectory (files : Text → FileEntry) (dirPath url fileName : Text) :
    HttpResponse δ :=
  sendFile files dirPath url
    ⟨if fileName ≠ [] then checkFileType fileName else checkFileType url, fileName⟩

end HttpRequest

/-- The maps are listed in the order in which they would be traversed. -/
structure RouteController (L A δ : Type) where
  routeGroupMap : List (Text × List (Option RequestMethod × RequestHandleFunction L A δ))
  routeMap : List (Text × List (Option RequestMethod × RequestHandleFunction L A δ))
  dashboardFolder : Text
  badRequestGetter : HttpRequest δ → HttpResponse δ

/-- `operator[]` of an unordered map followed by an assignment. -/
def insertEntry {κ α : Type} [DecidableEq κ] (key : κ) (value : α) : List (κ × α) → List (κ × α)
  | [] => [(key, value)]
  | entry :: entries =>
    if entry.1 = key then (key, value) :: entries else entry :: insertEntry key value entries

namespace RouteController

section Add

variable {L A δ : Type}

def empty : RouteController L A δ := ⟨[], [], [], fun _ => HttpRequest.badRequestDefault⟩

def addRouteGroup (controller : RouteController L A δ) (method : Option RequestMethod)
    (routePath : Text) (handleFunction : RequestHandleFunction L A δ) : RouteController L A δ :=
  let routeSet := (controller.routeGroupMap.lookup routePath).getD []
  { controller with
    routeGroupMap := insertEntry routePath (insertEntry method handleFunction routeSet)
      controller.routeGroupMap }

def addRoute (controller : RouteController L A δ) (method : Option RequestMethod)
    (routePath : Text) (handleFunction : RequestHandleFunction L A δ) : RouteController L A δ :=
  let routeSet := (controller.routeMap.lookup routePath).getD []
  { controller with
    routeMap := insertEntry routePath (insertEntry method handleFunction routeSet)
      controller.routeMap }

end Add

variable {L A δ : Type} [CharConv δ] (controller : RouteController L A δ)
  (files : Text → FileEntry) (dirPath : Text)

/-- The text of a response, with which the coroutine goes on. -/
def withText (response : HttpResponse δ) (next : Text → Program L A δ) : Program L A δ :=
  match response.getResponseInString with
  | some text => next text
  | none => .act .followEnd (next [])

def callHandler (handler : RequestHandleFunction L A δ) (request : HttpRequest δ) :
    Program L A δ :=
  .awaitTask (handler request) fun v => withText v.asResponse fun text => .coReturn (.text text)

def checkGroups (request : HttpRequest δ) :
    List (Text × List (Option RequestMethod × RequestHandleFunction L A δ)) → Program L A δ
  | [] => .coReturn (.text [])
  | (path, routeSet) :: groups =>
    if (indexOf path request.url).isSome then
      match routeSet.lookup request.getRequestMethod with
      | some handler => callHandler handler request
      | none => checkGroups request groups
    else checkGroups request groups

def checkHandleByRouteGroup (request : HttpRequest δ) : Program L A δ :=
  checkGroups request controller.routeGroupMap

def checkHandleByRoute (request : HttpRequest δ) : Program L A δ :=
  match (controller.routeMap.lookup request.url).bind (·.lookup request.getRequestMethod) with
  | some handler => callHandler handler request
  | none => .coReturn (.text [])

def checkSendFileFromDashboardFolder (request : HttpRequest δ) (next : Text → Program L A δ) :
    Program L A δ :=
  if controller.dashboardFolder ≠ [] then
    let filePath := controller.dashboardFolder ++ request.url
    if HttpRequest.checkIsFilePathExist files dirPath filePath then
      withText (HttpRequest.sendFileFromDirectory files dirPath filePath []) next
    else next []
  else next []

/-- Behind the routes: an empty text stands for no match. -/
def handleUnmatched (request : HttpRequest δ) (response : Text) : Program L A δ :=
  let notFound (response : Text) : Program L A δ :=
    if response = [] then
      withText (controller.badRequestGetter request) fun text => .coReturn (.text text)
    else .coReturn (.text response)
  if response = [] then controller.checkSendFileFromDashboardFolder files dirPath request notFound
  else notFound response

def handleRequestBaseOnRoute (request : HttpRequest δ) : Program L A δ :=
  .awaitTask (controller.checkHandleByRouteGroup request) fun v =>
    if v.asText = [] then
      .awaitTask (controller.checkHandleByRoute request) fun v =>
        controller.handleUnmatched files dirPath request v.asText
    else controller.handleUnmatched files dirPath request v.asText

def executeRequest (request : HttpRequest δ) : Program L A δ :=
  .awaitTask (controller.handleRequestBaseOnRoute files dirPath request) fun v =>
    .act (.writeToSocketIo v.asText) (.act .deleteRequest (.coReturn .unit))

/-- There is no request, so the default is taken and not the getter. -/
def send404Response : Program L A δ :=
  withText (HttpRequest.badRequestDefault : HttpResponse δ) fun text =>
    .act (.writeToSocketIo text) (.coReturn .unit)

end RouteController

end OrderBookServer
